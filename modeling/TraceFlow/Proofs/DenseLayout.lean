import Mathlib.Algebra.BigOperators.Group.List.Lemmas
import Mathlib.Algebra.BigOperators.Ring.List
import Mathlib.Algebra.Order.BigOperators.Group.List
import TraceFlow.Proofs.Buffers

set_option autoImplicit false

namespace TraceFlow

open List

variable {total n count : Nat} {sizes index shape : List Nat} {name : String} {d : Descriptor}
  {t u : Tensor}

theorem foldlM_checkSize_add (small : total < sizeBound) (sizes : List Nat) :
    sizes.foldlM (fun total n => checkSize (total + n)) total =
      if total + sizes.sum < sizeBound then .ok (total + sizes.sum) else .error
        (.fault .overflow) := by
  induction sizes generalizing total with
  | nil => simp [small]
  | cons n rest ih =>
    rw [foldlM_cons, checkSize, sum_cons, ← Nat.add_assoc]
    by_cases fits : total + n < sizeBound
    · rw [if_pos fits, ok_bind, ih fits]
    · rw [if_neg fits, Outcome.error_bind, if_neg (by omega)]

theorem mapM_checkSize (sizes : List Nat) :
    sizes.mapM checkSize = if ∀ n ∈ sizes, n < sizeBound then .ok sizes else .error
      (.fault .overflow) := by
  induction sizes with
  | nil => rfl
  | cons n rest ih =>
    rw [mapM_cons, checkSize, ih]
    simp only [mem_cons, forall_eq_or_imp]
    by_cases here : n < sizeBound
    · by_cases there : ∀ m ∈ rest, m < sizeBound
      · rw [if_pos here, if_pos there, if_pos ⟨here, there⟩]
        rfl
      · rw [if_pos here, if_neg there, if_neg fun both => there both.2]
        rfl
    · rw [if_neg here, Outcome.error_bind, if_neg fun both => here both.1]

theorem sum_checkSize (sizes : List Nat) :
    (do sizeSum (← sizes.mapM checkSize)) = if sizes.sum < sizeBound then .ok sizes.sum else .error
      (.fault .overflow) := by
  rw [mapM_checkSize]
  by_cases all : ∀ n ∈ sizes, n < sizeBound
  · rw [if_pos all, ok_bind, sizeSum, foldlM_checkSize_add (by simp [sizeBound]), Nat.zero_add]
  · rw [if_neg all, Outcome.error_bind, if_neg]
    intro small
    exact all fun n member => Nat.lt_of_le_of_lt (single_le_sum (by simp) n member) small

theorem foldlM_checkSize_mul
    (product : sizes.foldlM (fun total n => checkSize (total * n)) total = .ok n) :
    n = total * sizes.prod := by
  induction sizes generalizing total with
  | nil =>
    cases product
    simp
  | cons size rest ih =>
    obtain ⟨next, first, others⟩ := bind_eq_ok.mp product
    obtain ⟨-, rfl⟩ := ite_eq_ok.mp first
    rw [ih others, prod_cons, Nat.mul_assoc]

theorem eq_prod_of_sizeProduct (product : sizeProduct sizes = .ok n) : n = sizes.prod := by
  rw [foldlM_checkSize_mul product, Nat.one_mul]

theorem foldlM_checkSize_mul_le {smaller : Nat} {lesser : List Nat}
    (product : sizes.foldlM (fun total n => checkSize (total * n)) total = .ok n)
    (le : smaller ≤ total) (below : List.Forall₂ (· ≤ ·) lesser sizes) :
    lesser.foldlM (fun total n => checkSize (total * n)) smaller = .ok (smaller * lesser.prod) := by
  induction below generalizing total smaller with
  | nil => simp
  | @cons less size lesser sizes here _ ih =>
    obtain ⟨next, first, others⟩ := bind_eq_ok.mp product
    obtain ⟨fits, rfl⟩ := ite_eq_ok.mp first
    have step := Nat.mul_le_mul le here
    rw [foldlM_cons, checkSize_eq_ok (Nat.lt_of_le_of_lt step fits), ok_bind, ih others step,
      prod_cons, Nat.mul_assoc]

theorem sizeProduct_le {sizes lesser : List Nat} {n : Nat} (product : sizeProduct sizes = .ok n)
    (below : List.Forall₂ (· ≤ ·) lesser sizes) : sizeProduct lesser = .ok lesser.prod := by
  have whole := foldlM_checkSize_mul_le product (Nat.le_refl 1) below
  rwa [Nat.one_mul] at whole

namespace Shape

def place (index strides : List Nat) : Nat :=
  (List.zipWith (· * ·) index strides).sum

theorem dot_eq (index strides : List Nat) :
    dot index strides = if place index strides < sizeBound then .ok (place index strides) else
    .error (.fault .overflow) := by
  have products : (index.zip strides).mapM (fun p => checkSize (p.1 * p.2)) =
    (List.zipWith (· * ·) index strides).mapM checkSize := by
    rw [← map_uncurry_zip_eq_zipWith, mapM_map]
    rfl
  rw [dot, products]
  exact sum_checkSize _

theorem offsetFrom_eq (small : total < sizeBound) (inside : List.Forall₂ (· < ·) index shape)
    (strides : List Nat) : offsetFrom total index shape strides =
      if total + place index strides < sizeBound then .ok (some (total + place index strides)) else
      .error (.fault .overflow) := by
  induction inside generalizing total strides with
  | nil => simp [offsetFrom, place, small]
  | @cons i extent index shape here _ ih =>
    cases strides with
    | nil => simp [offsetFrom, place, small]
    | cons stride strides =>
      have split : total + place (i :: index) (stride :: strides) = total + i * stride + place index
        strides := by
        simp [place, Nat.add_assoc]
      rw [offsetFrom, if_pos here, split, checkSize]
      by_cases step : i * stride < sizeBound
      · rw [if_pos step, ok_bind, checkSize]
        by_cases sum : total + i * stride < sizeBound
        · rw [if_pos sum, ok_bind, ih sum]
        · rw [if_neg sum, Outcome.error_bind, if_neg (by omega)]
      · rw [if_neg step, Outcome.error_bind, if_neg (by omega)]

theorem indices_cons (extent : Nat) (rest : List Nat) :
    indices (extent :: rest) = (List.range extent).flatMap fun i => (indices rest).map
    (i :: ·) := by
  cases extent with
  | zero => rfl
  | succ extent =>
    rw [indices]
    split
    next none => simp [none]
    · rfl
    · simp

theorem mem_indices : index ∈ indices shape ↔ List.Forall₂ (· < ·) index shape := by
  induction shape generalizing index with
  | nil => simp [indices]
  | cons extent rest ih =>
    simp only [indices_cons, mem_flatMap, mem_range, mem_map, ih, forall₂_cons_right_iff]
    grind

theorem offset?_eq (member : index ∈ indices shape) (strides : List Nat) :
    offset? shape strides index = (do return some (← dot index strides)) := by
  have inside := mem_indices.mp member
  rw [offset?, if_pos inside.length_eq, offsetFrom_eq (by simp [sizeBound]) inside, dot_eq,
    Nat.zero_add]
  split <;> rfl

theorem span_eq_prod (positive : shape.prod ≠ 0) : span shape = shape.prod := by
  induction shape with
  | nil => rfl
  | cons extent rest ih =>
    rw [prod_cons, Nat.mul_ne_zero_iff] at positive
    have one : max extent 1 = extent := by omega
    rw [span, foldr_cons, one, prod_cons]
    exact congrArg (extent * ·) (ih positive.2)

theorem denseStrides_eq_ok {strides : List Nat} (sizes : denseStrides shape = .ok strides) :
    strides = rowMajor shape := by
  rw [denseStrides, mapM_checkSize] at sizes
  exact (ite_eq_ok.mp sizes).2.symm

theorem range_mul (count width : Nat) :
    List.range (count * width) = (List.range count).flatMap fun i => (List.range width).map fun j =>
    i * width + j := by
  induction count with
  | zero => simp
  | succ count ih => rw [Nat.succ_mul, range_add, ih, range_succ, flatMap_append, flatMap_singleton]

theorem places_rowMajor (shape : List Nat) : (indices shape).map
    (fun index => place index (rowMajor shape)) = List.range shape.prod := by
  induction shape with
  | nil => rfl
  | cons extent rest ih =>
    rw [indices_cons, map_flatMap, prod_cons, range_mul]
    congr 1
    funext i
    rw [map_map, ← ih, map_map]
    refine map_congr_left fun index member => ?_
    have some : place index (rowMajor rest) ∈ List.range rest.prod := ih ▸ mem_map_of_mem member
    rw [mem_range] at some
    simp only [Function.comp, rowMajor, span_eq_prod (by omega : rest.prod ≠ 0)]
    rfl

theorem nodup_indices (shape : List Nat) : (indices shape).Nodup := by
  refine List.Nodup.of_map (fun index => place index (rowMajor shape)) ?_
  rw [places_rowMajor]
  exact nodup_range

theorem place_lt (member : index ∈ indices shape) : place index (rowMajor shape) < shape.prod := by
  rw [← mem_range, ← places_rowMajor]
  exact mem_map_of_mem member

def pick (shape : List Nat) (values : List Datum) (index : List Nat) : Datum :=
  (values[place index (rowMajor shape)]?).getD default

variable {values : List Datum}

theorem pick_mem (counted : values.length = shape.prod) (member : index ∈ indices shape) :
    pick shape values index ∈ values := by
  rw [pick, getElem?_eq_getElem (counted ▸ place_lt member)]
  exact getElem_mem _

theorem map_pick (counted : values.length = shape.prod) :
    (indices shape).map (pick shape values) = values := by
  have picked : pick shape values = (fun i => (values[i]?).getD default) ∘ fun index =>
    place index (rowMajor shape) := rfl
  rw [picked, ← map_map, places_rowMajor]
  refine ext_getElem (by simp [counted]) fun i _ inside => ?_
  rw [getElem_map, getElem_range, getElem?_eq_getElem inside]
  rfl

def last (shape : List Nat) : List Nat :=
  shape.map (· - 1)

theorem bufferLength_eq (shape strides : List Nat) :
    bufferLength shape strides = if 0 ∈ shape then .ok 0 else
    (do checkSize (1 + (← dot (last shape) strides))) := by
  have empty : shape.any (· == 0) = true ↔ 0 ∈ shape := by simp
  have steps : (shape.zip strides).mapM (fun p => checkSize ((p.1 - 1) * p.2)) =
      ((last shape).zip strides).mapM fun p => checkSize (p.1 * p.2) := by
    rw [last, zip_map_left, mapM_map]
    rfl
  simp only [bufferLength, empty, steps, dot, bind_assoc]

theorem bufferLength_rowMajor_eq (shape : List Nat) :
    bufferLength shape (rowMajor shape) = if shape.prod < sizeBound then .ok shape.prod else .error
      (.fault .overflow) := by
  rw [bufferLength_eq]
  split
  next empty =>
    rw [prod_eq_zero empty]
    rfl
  next full =>
    have positive : shape.prod ≠ 0 := prod_ne_zero full
    have last : 1 + place (last shape) (rowMajor shape) = shape.prod := by
      clear full
      induction shape with
      | nil => rfl
      | cons extent rest ih =>
        rw [prod_cons, Nat.mul_ne_zero_iff] at positive
        obtain ⟨before, rfl⟩ : ∃ before, extent = before + 1 := ⟨extent - 1, by omega⟩
        have inner := ih positive.2
        rw [Shape.last, map_cons, rowMajor, span_eq_prod positive.2, prod_cons]
        simp only [place, Shape.last, zipWith_cons_cons, sum_cons, Nat.add_sub_cancel] at inner ⊢
        rw [Nat.add_mul, Nat.one_mul]
        omega
    rw [dot_eq]
    split
    · rw [ok_bind, checkSize, last]
    · rw [if_neg (by omega)]
      rfl

theorem bufferLength_rowMajor (length : bufferLength shape (rowMajor shape) = .ok count) :
    count = shape.prod := by
  rw [bufferLength_rowMajor_eq] at length
  exact (ite_eq_ok.mp length).2.symm

end Shape

theorem signedWord_bounds (n : Nat) : -indexBound ≤ signedWord n ∧ signedWord n < indexBound := by
  have half : (sizeBound : Int) / 2 = indexBound := by decide
  have halves : ((sizeBound : Int) + 1) / 2 = indexBound := by decide
  constructor
  · rw [← half]
    exact Int.le_bmod (by simp [sizeBound])
  · rw [← halves]
    exact Int.bmod_lt (by simp [sizeBound])

namespace Box

variable {bounds : List (Int × Int)}

theorem points_cons (bound : Int × Int) (rest : List (Int × Int)) :
    points (bound :: rest) = (run bound.1 bound.2).flatMap fun i => (points rest).map (i :: ·) := by
  rw [points]
  split
  next empty => rw [run, Int.toNat_of_nonpos (by omega), range_zero, map_nil, flatMap_nil]
  · split
    next none => simp [none]
    · rfl

theorem mem_run {low high i : Int} : i ∈ run low high ↔ low ≤ i ∧ i < high := by
  simp only [run, mem_map, mem_range]
  exact ⟨by rintro ⟨k, below, rfl⟩; omega, fun ⟨least, most⟩ =>
    ⟨(i - low).toNat, by omega, by omega⟩⟩

theorem mem_points {point : List Int} : point ∈ points bounds ↔ List.Forall₂
    (fun bound i => bound.1 ≤ i ∧ i < bound.2) bounds point := by
  induction bounds generalizing point with
  | nil => simp [points]
  | cons bound rest ih =>
    simp only [points_cons, mem_flatMap, mem_map, mem_run, ih, forall₂_cons_left_iff]
    grind

theorem length_points (bounds : List (Int × Int)) :
    (points bounds).length = (bounds.map fun bound => (bound.2 - bound.1).toNat).prod := by
  induction bounds with
  | nil => rfl
  | cons bound rest ih => simp [points_cons, run, ih, Function.comp_def]

theorem nodup_points (bounds : List (Int × Int)) : (points bounds).Nodup := by
  induction bounds with
  | nil => exact nodup_singleton _
  | cons bound rest ih =>
    have numbers : (run bound.1 bound.2).Nodup := nodup_range.map fun k k' same => by omega
    rw [points_cons]
    refine nodup_flatMap.mpr ⟨fun i _ => ih.map (cons_injective), numbers.imp fun apart => ?_⟩
    intro point here there
    obtain ⟨_, -, rfl⟩ := mem_map.mp here
    obtain ⟨_, -, same⟩ := mem_map.mp there
    exact apart (List.cons.inj same).1.symm

end Box

namespace Access

theorem points_box (few : shape.prod < indexBound) :
    Box.points (shape.map fun extent => (0, signedWord extent)) = (Shape.indices shape).map
      (·.map Nat.cast) := by
  induction shape with
  | nil => rfl
  | cons extent rest ih =>
    rw [prod_cons] at few
    rw [map_cons, Box.points_cons, Shape.indices_cons]
    by_cases none : rest.prod = 0
    · have empty : Shape.indices rest = [] := by
        rw [← map_eq_nil_iff, Shape.places_rowMajor, none, range_zero]
      rw [ih (by rw [none]; decide), empty, flatMap_eq_nil_iff.mpr (by simp),
        flatMap_eq_nil_iff.mpr (by simp)]
      rfl
    · rcases Nat.eq_zero_or_pos extent with rfl | some
      · rfl
      · rw [ih ((Nat.le_mul_of_pos_left rest.prod some).trans_lt few),
          signedWord_eq ((Nat.le_mul_of_pos_right extent (Nat.pos_of_ne_zero none)).trans_lt few)]
        simp [Box.run, map_flatMap, flatMap_map, Function.comp_def]

theorem volume_full (counted : sizeProduct d.shape = .ok count)
    (few : count < indexBound) : (full name d).volume = .ok count := by
  have extents : (fullRanges d.shape).mapM Subscript.extent = .ok (d.shape.map fun extent =>
    (signedWord extent).toNat) := by
    rw [mapM_eq_ok, fullRanges, forall₂_map_left_iff, forall₂_map_right_iff, forall₂_same]
    intro extent _
    have bounds := signedWord_bounds extent
    rw [Subscript.extent, rangeExtent, Int.sub_zero, checkIndex_eq_ok bounds.1 bounds.2]
    rfl
  have below (n : Nat) : (signedWord n).toNat ≤ n := by
    have bounds := signedWord_bounds n
    by_cases small : n < indexBound
    · rw [signedWord_eq small]
      exact Nat.le_refl n
    · omega
  have products := @sizeProduct_le _ (d.shape.map fun extent => (signedWord extent).toNat) _ counted
    (by rw [forall₂_map_left_iff]; exact forall₂_same.mpr fun n _ => below n)
  obtain rfl := eq_prod_of_sizeProduct counted
  have same : (d.shape.map fun extent => (signedWord extent).toNat).prod = d.shape.prod := by
    by_cases empty : 0 ∈ d.shape
    · rw [prod_eq_zero empty, prod_eq_zero]
      exact mem_map.mpr ⟨0, empty, rfl⟩
    · have each : ∀ extent ∈ d.shape, (signedWord extent).toNat = extent := by
        intro extent member
        have small : extent < indexBound :=
          Nat.lt_of_le_of_lt (Nat.le_of_dvd (Nat.pos_of_ne_zero (prod_ne_zero empty))
            (dvd_prod member)) few
        rw [signedWord_eq small, Int.toNat_natCast]
      rw [map_congr_left each, map_id']
  rw [volume, full, extents, ok_bind, products, same]

theorem points_full {name : String} {d : Descriptor} {count : Nat}
    (counted : sizeProduct d.shape = .ok count)
    (few : count * 24 < indexBound) (lookup : String → Option Int) :
    (full name d).points lookup = .ok ((Shape.indices d.shape).map (·.map Nat.cast)) := by
  have bounds : (full name d).bounds lookup = .ok (d.shape.map fun extent =>
    (0, signedWord extent)) := by
    rw [Access.bounds, full, mapM_eq_ok, fullRanges, forall₂_map_left_iff, forall₂_map_right_iff]
    exact forall₂_same.mpr fun _ _ => rfl
  have below : count < indexBound := by omega
  rw [points, bounds, ok_bind, volume_full counted below, ok_bind, checkCapacity, if_pos few,
    ok_bind,
    Outcome.pure_eq, points_box (eq_prod_of_sizeProduct counted ▸ below)]

theorem few_of_points (counted : sizeProduct d.shape = .ok count) (few : count < indexBound)
    {lookup : String → Option Int} {points : List (List Int)}
    (listed : (full name d).points lookup = .ok points) : count * 24 < indexBound := by
  rw [Access.points] at listed
  obtain ⟨_, -, listed⟩ := bind_eq_ok.mp listed
  rw [volume_full counted few, ok_bind] at listed
  obtain ⟨_, room, -⟩ := bind_eq_ok.mp listed
  exact (ite_eq_ok.mp room).1

end Access

namespace Outcome

variable {α β γ : Type}

theorem mapM_congr {f g : α → Outcome β} {xs : List α} (same : ∀ x ∈ xs, f x = g x) :
    xs.mapM f = xs.mapM g := by
  induction xs with
  | nil => rfl
  | cons x rest ih =>
    rw [mapM_cons, mapM_cons, same x mem_cons_self, ih fun other member => same other
      (mem_cons_of_mem x member)]

theorem mapM_bind_eq_ok {f : α → Outcome β} {g : β → Outcome γ} {xs : List α} {zs : List γ} :
    xs.mapM (fun x => f x >>= g) = .ok zs ↔ ∃ ys, xs.mapM f = .ok ys ∧ ys.mapM g = .ok zs := by
  simp only [mapM_eq_ok, bind_eq_ok]
  exact forall₂_comp

end Outcome

namespace Tensor

variable {values : List Datum}

theorem locate_index (member : index ∈ Shape.indices t.shape) (name : String) :
    t.locate name (index.map Nat.cast) = Shape.dot index t.strides := by
  have natural : (index.map (Nat.cast : Nat → Int)).all (0 ≤ ·) = true := by simp
  have back : (index.map (Nat.cast : Nat → Int)).map Int.toNat = index := by
    simp [Function.comp_def]
  rw [locate, natural, back, offset?, Shape.offset?_eq member]
  cases Shape.dot index t.strides <;> rfl

structure Counts (t : Tensor) (count : Nat) : Prop where
  counted : sizeProduct t.shape = .ok count
  few : count * 24 < indexBound

theorem Counts.listed (counts : t.Counts n) : n * 8 < indexBound :=
  (Nat.mul_le_mul_left n (by decide)).trans_lt counts.few

theorem offsets_of_count (counted : t.count = .ok n) (listed : n * 8 < indexBound) :
    t.offsets = (Shape.indices t.shape).mapM fun index => Shape.dot index t.strides := by
  rw [Tensor.offsets, counted, ok_bind, checkCapacity, if_pos listed, ok_bind]

theorem length_indices (counted : sizeProduct shape = .ok count) :
    (Shape.indices shape).length = count := by
  have places := congrArg List.length (Shape.places_rowMajor shape)
  rwa [length_map, length_range, ← eq_prod_of_sizeProduct counted] at places

theorem count_of_values (known : t.values = .ok values) : t.count = .ok values.length ∧
    values.length * 8 < indexBound := by
  obtain ⟨offsets, located, read⟩ := bind_eq_ok.mp known
  obtain ⟨n, counted, located⟩ := bind_eq_ok.mp located
  obtain ⟨_, room, located⟩ := bind_eq_ok.mp located
  obtain rfl : n = values.length := by
    rw [← (mapM_eq_ok.mp read).length_eq, ← (mapM_eq_ok.mp located).length_eq,
      length_indices counted]
  exact ⟨counted, (ite_eq_ok.mp room).1⟩

theorem Counts.length_values (counts : t.Counts n) (known : t.values = .ok values) :
    values.length = n := by
  have counted := (count_of_values known).1
  rw [count, counts.counted] at counted
  exact (Except.ok.inj counted).symm

theorem Counts.laidOutAs (counts : t.Counts n) (same : t.LaidOutAs u) : u.Counts n :=
  ⟨same.shape ▸ counts.counted, counts.few⟩

theorem read_indices (counted : t.count = .ok n) (listed : n * 8 < indexBound) (name : String) :
    ((Shape.indices t.shape).map (·.map Nat.cast)).mapM
      (fun index => do t.get (← t.locate name index)) = .ok values ↔
      t.values = .ok values := by
  have located : ((Shape.indices t.shape).map (·.map Nat.cast)).mapM (t.locate name) =
    t.offsets := by
    rw [mapM_map, offsets_of_count counted listed]
    exact Outcome.mapM_congr fun index member => locate_index member name
  rw [Outcome.mapM_bind_eq_ok, located, Tensor.values, bind_eq_ok]

theorem writeAll_indices {indices : List (List Nat)}
    (inside : ∀ index ∈ indices, index ∈ Shape.indices t.shape)
    (fits : values.length = indices.length) :
    Effect.writeAll t name ((indices.map (·.map Nat.cast)).zip values) = .ok u ↔
      ∃ offsets, indices.mapM (fun index => Shape.dot index t.strides) = .ok offsets ∧ t.store
        (offsets.zip values) = .ok u := by
  induction indices generalizing t values with
  | nil => simp [Effect.writeAll, store]
  | cons index rest ih =>
    obtain _ | ⟨value, values⟩ := values
    · simp at fits
    have here := locate_index (inside index mem_cons_self) name
    simp only [map_cons, zip_cons_cons, Effect.writeAll, here, mapM_cons, bind_eq_ok,
      Outcome.pure_eq,
      Except.ok.injEq]
    -- Writing changes neither shape nor strides, so that the later elements are found where they
    -- would have been.
    have later {t₁ : Tensor} {offset : Nat} (written : t.set offset value = .ok t₁) :
        Effect.writeAll t₁ name ((rest.map (·.map Nat.cast)).zip values) = .ok u ↔
          ∃ offsets, rest.mapM (fun index => Shape.dot index t.strides) = .ok offsets ∧
          t₁.store (offsets.zip values) = .ok u := by
      have same := laidOutAs_set written
      rw [← same.strides]
      exact ih (fun other member => same.shape ▸ inside other (mem_cons_of_mem index member))
        (by simpa using fits)
    constructor
    · rintro ⟨offset, located, t₁, written, others⟩
      obtain ⟨offsets, known, stored⟩ := (later written).mp others
      exact ⟨offset :: offsets, ⟨offset, located, offsets, known, rfl⟩,
        bind_eq_ok.mpr ⟨t₁, written, stored⟩⟩
    · rintro ⟨_, ⟨offset, located, offsets, known, rfl⟩, stored⟩
      obtain ⟨t₁, written, stored⟩ := bind_eq_ok.mp stored
      exact ⟨offset, located, t₁, written, (later written).mpr ⟨offsets, known, stored⟩⟩

end Tensor

namespace Effect

def copied (source target : Access) (symbols : Symbols) (t u : Tensor) : Outcome Tensor := do
  let reads ← source.points symbols.get?
  let writes ← target.points symbols.get?
  if reads.length ≠ writes.length then
    halt (.copyMismatch (← source.text) (← target.text) reads.length writes.length)
  let values ← reads.mapM fun index => do t.get (← t.locate source.array index)
  writeAll u target.array (writes.zip values)

theorem copy_eq {source target : Access} {memory : Memory}
    (reads : memory.get? source.array = some t)
    (writes : memory.get? target.array = some u) (symbols : Symbols) :
    copy source target memory symbols =
    (do return memory.insert target.array (← copied source target symbols t u)) := by
  simp only [copy, copied, Memory.array, reads, writes, ok_bind, bind_assoc]
  congr 1
  funext from_
  congr 1
  funext to_
  split
  · simp only [bind_assoc]
  · rw [bind_assoc]

theorem copy_eq_ok {source target : Access} {memory after : Memory} {symbols : Symbols} :
    copy source target memory symbols = .ok after ↔ ∃ t u v, memory.get? source.array = some t ∧
    memory.get? target.array = some u ∧
      copied source target symbols t u = .ok v ∧ after = memory.insert target.array v := by
  constructor
  · intro ran
    have both : ∃ t u, memory.get? source.array = some t ∧ memory.get? target.array = some u := by
      unfold copy at ran
      obtain ⟨reads, -, ran⟩ := bind_eq_ok.mp ran
      obtain ⟨writes, -, ran⟩ := bind_eq_ok.mp ran
      split at ran
      · obtain ⟨_, -, ran⟩ := bind_eq_ok.mp ran
        obtain ⟨_, -, ran⟩ := bind_eq_ok.mp ran
        obtain ⟨_, impossible, -⟩ := bind_eq_ok.mp ran
        cases impossible
      · obtain ⟨t, source_, ran⟩ := bind_eq_ok.mp ran
        obtain ⟨values, -, ran⟩ := bind_eq_ok.mp ran
        obtain ⟨u, target_, -⟩ := bind_eq_ok.mp ran
        exact ⟨t, u, Memory.array_eq_ok.mp source_, Memory.array_eq_ok.mp target_⟩
    obtain ⟨t, u, reads, writes⟩ := both
    rw [copy_eq reads writes] at ran
    obtain ⟨v, made, ran⟩ := bind_eq_ok.mp ran
    cases ran
    exact ⟨t, u, v, reads, writes, made, rfl⟩
  · rintro ⟨t, u, v, reads, writes, made, rfl⟩
    rw [copy_eq reads writes, made]
    rfl

theorem copied_full {source target : String} {d d' : Descriptor} {count : Nat} {symbols : Symbols}
    {t u v : Tensor} (shape : t.shape = d.shape)
    (shape' : u.shape = d'.shape) (counts : t.Counts count) (counts' : u.Counts count) :
    copied (.full source d) (.full target d') symbols t u = .ok v ↔ ∃ values,
    t.values = .ok values ∧ u.assign values = .ok v := by
  have from_ := @Access.points_full source _ _ (shape ▸ counts.counted) counts.few symbols.get?
  have to_ := @Access.points_full target _ _ (shape' ▸ counts'.counted) counts'.few symbols.get?
  have lengths : ((Shape.indices d.shape).map (·.map (Nat.cast : Nat → Int))).length =
      ((Shape.indices d'.shape).map (·.map (Nat.cast : Nat → Int))).length := by
    rw [length_map, length_map, Tensor.length_indices (shape ▸ counts.counted),
      Tensor.length_indices (shape' ▸ counts'.counted)]
  rw [copied, from_, ok_bind, to_, ok_bind, if_neg (not_not.mpr lengths), bind_eq_ok]
  simp only [Access.full]
  rw [← shape, ← shape']
  simp only [Tensor.read_indices counts.counted counts.listed]
  refine exists_congr fun values => and_congr_right fun read => ?_
  have fits : values.length = (Shape.indices u.shape).length := by
    rw [counts.length_values read, Tensor.length_indices counts'.counted]
  rw [Tensor.writeAll_indices (fun _ member => member) fits, Tensor.assign, bind_eq_ok,
    Tensor.offsets_of_count counts'.counted counts'.listed]

end Effect

namespace Tensor

structure Sound (t : Tensor) : Prop where
  small : t.bytes.size < indexBound
  reaches : ∀ index ∈ Shape.indices t.shape, t.Reaches (Shape.place index t.strides)

section

variable (sound : t.Sound)

include sound

theorem Sound.laidOutAs (same : t.LaidOutAs u) : u.Sound where
  small := same.size ▸ sound.small
  reaches index member := by
    rw [same.strides, same.reaches]
    exact sound.reaches index (same.shape ▸ member)

theorem Sound.dot (member : index ∈ Shape.indices t.shape) : Shape.dot index t.strides = .ok
    (Shape.place index t.strides) := by
  have inside := sound.reaches index member
  have wide := Nat.le_mul_of_pos_right (Shape.place index t.strides + 1) t.elem.width_pos
  have small := sound.small
  rw [Reaches] at inside
  simp only [indexBound] at small
  rw [Shape.dot_eq, if_pos (by simp only [sizeBound]; omega)]

theorem Sound.locate (member : index ∈ Shape.indices t.shape) (name : String) :
    t.locate name (index.map Nat.cast) = .ok (Shape.place index t.strides) := by
  rw [locate_index member, sound.dot member]

variable (counted : t.count = .ok count) (listed : count * 8 < indexBound)

include counted listed

theorem Sound.offsets : t.offsets = .ok
    ((Shape.indices t.shape).map fun index => Shape.place index t.strides) := by
  rw [offsets_of_count counted listed, mapM_eq_ok, forall₂_map_right_iff, forall₂_same]
  exact fun index member => sound.dot member

theorem Sound.values : t.values = .ok
    ((Shape.indices t.shape).map fun index => t.datum (Shape.place index t.strides)) := by
  rw [Tensor.values, sound.offsets counted listed, ok_bind, mapM_eq_ok, forall₂_map_left_iff,
    forall₂_map_right_iff,
    forall₂_same]
  exact fun index member => (sound.reaches index member).get

theorem Sound.assign {values : List Datum} (length : values.length = count)
    (separate : ((Shape.indices t.shape).map fun index => Shape.place index t.strides).Nodup) :
    ∃ u, t.store (((Shape.indices t.shape).map fun index => Shape.place index t.strides).zip
      values) = .ok u ∧ t.LaidOutAs u ∧ u.values = .ok (values.map t.elem.recode) := by
  have lengths := length.trans (length_indices counted).symm
  obtain ⟨u, stored⟩ := @succeeds_store t
    (((Shape.indices t.shape).map fun index => Shape.place index t.strides).zip values) (by
    intro pair member
    obtain ⟨index, inside, same⟩ := mem_map.mp (of_mem_zip member).1
    exact same ▸ sound.reaches index inside)
  have same := laidOutAs_store stored
  refine ⟨u, stored, same, ?_⟩
  rw [(sound.laidOutAs same).values (by rw [Tensor.count, same.shape]; exact counted) listed,
    same.shape, same.strides]
  refine congrArg _ (ext_getElem (by simp [lengths]) fun i inside inside' => ?_)
  simp only [length_map] at inside inside'
  have found := get_store stored (by rw [map_fst_zip (by simp [lengths])]; exact separate)
    (mem_of_getElem? (i := i)
    (by
      rw [getElem?_zip_eq_some, getElem?_map, getElem?_eq_getElem inside,
        getElem?_eq_getElem inside']
      exact ⟨rfl, rfl⟩))
  rw [getElem_map, getElem_map]
  exact (get_eq_ok.mp found).2

end

structure Dense (t : Tensor) (count : Nat) : Prop extends t.Counts count where
  strides : t.strides = Shape.rowMajor t.shape
  size : t.bytes.size = count * t.elem.width

section

variable (dense : t.Dense count)

include dense

theorem Dense.laidOutAs (same : t.LaidOutAs u) : u.Dense count where
  toCounts := dense.toCounts.laidOutAs same
  strides := by rw [same.strides, dense.strides, same.shape]
  size := by rw [same.size, dense.size, same.elem]

theorem Dense.reaches (offset : Nat) : t.Reaches offset ↔ offset < count := by
  rw [Reaches, dense.size]
  exact ⟨fun le => Nat.le_of_mul_le_mul_right le t.elem.width_pos,
    fun lt => Nat.mul_le_mul_right _ lt⟩

theorem Dense.places : (Shape.indices t.shape).map
    (fun index => Shape.place index t.strides) = List.range count := by
  rw [dense.strides, eq_prod_of_sizeProduct dense.counted, Shape.places_rowMajor]

theorem Dense.sound : t.Sound where
  small := by
    have narrow : t.elem.width ≤ 24 := by cases t.elem <;> decide
    rw [dense.size]
    exact (Nat.mul_le_mul_left count narrow).trans_lt dense.few
  reaches index member := by
    rw [dense.reaches, ← mem_range, ← dense.places]
    exact mem_map_of_mem member

theorem Dense.offsets : t.offsets = .ok (List.range count) := by
  rw [dense.sound.offsets dense.counted dense.listed, dense.places]

theorem Dense.values : t.values = (List.range count).mapM t.get := by
  rw [Tensor.values, dense.offsets, ok_bind]

theorem Dense.exists_values : ∃ values, t.values = .ok values :=
  ⟨_, dense.sound.values dense.counted dense.listed⟩

variable {values : List Datum}

theorem Dense.pick_eq (held : t.values = .ok values) (member : index ∈ Shape.indices t.shape) :
    Shape.pick t.shape values index = t.datum (Shape.place index t.strides) := by
  have length := (dense.length_values held).trans (eq_prod_of_sizeProduct dense.counted)
  rw [dense.sound.values dense.counted dense.listed, ← Shape.map_pick length, Except.ok.injEq,
    map_inj_left] at held
  exact (held index member).symm

theorem Dense.read (held : t.values = .ok values) (member : index ∈ Shape.indices t.shape)
    (name : String) :
    (do t.get (← t.locate name (index.map Nat.cast))) = .ok (Shape.pick t.shape values index) := by
  rw [dense.sound.locate member, ok_bind, (dense.sound.reaches index member).get,
    dense.pick_eq held member]

theorem Dense.values_eq_ok : t.values = .ok values ↔ values.length = count ∧ ∀ i d,
    values[i]? = some d → t.get i = .ok d := by
  rw [dense.values, mapM_eq_ok, forall₂_iff_get]
  simp only [length_range, get_eq_getElem, getElem_range]
  constructor
  · rintro ⟨length, each⟩
    refine ⟨length.symm, fun i d found => ?_⟩
    obtain ⟨inside, rfl⟩ := List.getElem?_eq_some_iff.mp found
    exact each i (length ▸ inside) inside
  · rintro ⟨length, each⟩
    exact ⟨length.symm, fun i _ inside => each i _ (getElem?_eq_getElem inside)⟩

theorem Dense.mem_values (known : t.values = .ok values) {offset : Nat} {d : Datum}
    (read : t.get offset = .ok d) : d ∈ values := by
  obtain ⟨length, each⟩ := dense.values_eq_ok.mp known
  have inside := (dense.reaches offset).mp (get_eq_ok.mp read).1
  have found := getElem?_eq_getElem (length.symm ▸ inside : offset < values.length)
  rw [each _ _ found] at read
  cases read
  exact getElem_mem _

theorem Dense.assign (length : values.length = count) :
    ∃ u, t.assign values = .ok u ∧ t.LaidOutAs u ∧ u.values = .ok (values.map t.elem.recode) := by
  have placed := dense.sound.assign dense.counted dense.listed length (dense.places ▸ nodup_range)
  rwa [dense.places, ← ok_bind (List.range count) fun offsets => t.store (offsets.zip values),
    ← dense.offsets] at placed

end

end Tensor

namespace ElemType

variable {t : ElemType}

-- Elements read from arrays of the type are read back unchanged after being stored in another.
def ReadsBack (t : ElemType) : Prop :=
  ∀ word < 256 ^ t.width, t.recode (t.decode word) = t.decode word

theorem emod_toUInt64 (x : Int64) {m : Nat} (divides : m ∣ 2 ^ 64) :
    ((x.toUInt64.toNat % m : Nat) : Int) = x.toInt % m := by
  have whole : x.toInt = (x.toUInt64.toNat : Int).bmod (2 ^ 64) :=
    BitVec.toInt_eq_toNat_bmod x.toBitVec
  rw [whole, Int.natCast_mod, ← Int.bmod_emod (x := (x.toUInt64.toNat : Int).bmod (2 ^ 64)),
    Int.bmod_bmod_of_dvd divides, Int.bmod_emod]

theorem recode_eq_cast (whole : t.isFloat = false) (d : Datum) : t.recode d = d.cast t := by
  have signed (kept : Int64) (k : Int) (cast : d.cast t = .int kept) (reads : ∀ word,
    t.decode word = .int (Int64.ofInt (Int.bmod word (256 ^ t.width))))
      (fits : kept.toInt = k.bmod (256 ^ t.width)) : t.recode d = d.cast t := by
    have divides : 256 ^ t.width ∣ 2 ^ 64 := by cases t <;> decide
    rw [recode, encode, cast, reads]
    dsimp only
    rw [emod_toUInt64 kept divides, Int.emod_bmod, fits, Int.bmod_bmod, ← fits, Int64.ofInt_toInt]
  have unsigned (kept : UInt64) (cast : d.cast t = .uint kept) (reads : ∀ word,
    t.decode word = .uint word.toUInt64)
      (fits : kept.toNat < 256 ^ t.width) : t.recode d = d.cast t := by
    rw [recode, encode, cast, reads]
    dsimp only
    rw [Nat.mod_eq_of_lt fits, Nat.toUInt64_eq, UInt64.ofNat_toNat]
  cases t with
  | float32 | float64 => cases whole
  | bool =>
    rw [recode, encode, Datum.cast]
    cases d.toBool <;> rfl
  | int8 | int16 | int32 | int64 =>
    exact signed _ d.toInt64.toInt rfl (fun _ => rfl) (by simp [width])
  | uint8 | uint16 | uint32 =>
    exact unsigned _ rfl (fun _ => rfl) (by simpa [width] using Nat.mod_lt _ (by decide))
  | uint64 => exact unsigned _ rfl (fun _ => rfl) (UInt64.toNat_lt _)

theorem encode_decode {word : Nat} (integer : t.isInteger = true) (small : word < 256 ^ t.width) :
    t.encode (t.decode word) % 256 ^ t.width = word := by
  have signed (kept : Int64) (stored : t.encode (t.decode word) = kept.toUInt64.toNat)
    (value : kept.toInt = Int.bmod word (256 ^ t.width)) :
      t.encode (t.decode word) % 256 ^ t.width = word := by
    have residue := emod_toUInt64 kept (m := 256 ^ t.width) (by cases t <;> decide)
    rw [value, Int.bmod_emod, ← Int.natCast_mod, Int.natCast_inj, Nat.mod_eq_of_lt small] at residue
    rw [stored, residue]
  cases t with
  | bool | float32 | float64 => cases integer
  | int8 | int16 | int32 | int64 => exact signed _ rfl (by simp [Datum.toInt64, decode, width])
  | uint8 | uint16 | uint32 | uint64 =>
    simpa [decode, encode, Datum.cast, Datum.toUInt64, width] using small

theorem eq_bool (whole : t.isFloat = false) (integer : t.isInteger = false) : t = .bool := by
  cases t <;> first | rfl | contradiction

theorem readsBack (whole : t.isFloat = false) : t.ReadsBack := by
  intro word small
  cases integer : t.isInteger with
  | true => rw [recode, encode_decode integer small]
  | false =>
    obtain rfl := eq_bool whole integer
    cases word <;> rfl

end ElemType

theorem wordAt_lt (bytes : Array UInt8) (start count : Nat) :
    wordAt bytes start count < 256 ^ count := by
  induction count generalizing start with
  | zero => simp [wordAt]
  | succ count ih =>
    have rest := ih (start + 1)
    have byte := (bytes.getD start 0).toNat_lt
    rw [wordAt, Nat.pow_succ]
    omega

namespace Tensor

variable {values : List Datum}

theorem map_recode_values (readsBack : t.elem.ReadsBack) (known : t.values = .ok values) :
    values.map t.elem.recode = values := by
  obtain ⟨offsets, -, read⟩ := bind_eq_ok.mp known
  rw [mapM_eq_ok] at read
  clear known
  induction read with
  | nil => rfl
  | cons here _ ih =>
    obtain ⟨-, rfl⟩ := get_eq_ok.mp here
    rw [map_cons, readsBack _ (wordAt_lt _ _ _), ih]

theorem blank_eq_ok {elem : ElemType} {length : Nat} {bytes : Array UInt8} :
    blank elem length = .ok bytes ↔ length * elem.width < indexBound ∧ bytes = Array.replicate
      (length * elem.width) 0 := by
  rw [blank, checkSize]
  by_cases small : length * elem.width < sizeBound
  · rw [if_pos small, ok_bind, checkCapacity, Nat.mul_one]
    by_cases few : length * elem.width < indexBound <;> simp [few, eq_comm]
  · have many : ¬ length * elem.width < indexBound := fun few => small (few.trans (by decide))
    simp [small, many]

theorem ofDescriptor_eq_ok : ofDescriptor d = .ok t ↔ ∃ length, d.bufferLength = .ok length ∧
    length * d.elem.width < indexBound ∧
      t = ⟨d.elem, d.shape, d.strides, if d.storage = .anywhere then .cpuHeap else d.storage,
        Array.replicate (length * d.elem.width) 0⟩ := by
  simp only [ofDescriptor, bind_eq_ok, blank_eq_ok, Outcome.pure_eq, Except.ok.injEq]
  constructor
  · rintro ⟨length, known, _, ⟨few, rfl⟩, rfl⟩
    exact ⟨length, known, few, rfl⟩
  · rintro ⟨length, known, few, rfl⟩
    exact ⟨length, known, _, ⟨few, rfl⟩, rfl⟩

theorem zeros_eq_ok {elem : ElemType} :
    zeros elem shape = .ok t ↔ ∃ count, sizeProduct shape = .ok count ∧
    (Shape.denseStrides shape).Succeeds ∧ count * elem.width < indexBound ∧
      t = ⟨elem, shape, Shape.rowMajor shape, .cpuHeap, Array.replicate (count * elem.width)
        0⟩ := by
  simp only [zeros, bind_eq_ok, blank_eq_ok, Outcome.pure_eq, Except.ok.injEq]
  constructor
  · rintro ⟨count, counted, strides, sizes, _, ⟨few, rfl⟩, rfl⟩
    exact ⟨count, counted, ⟨strides, sizes⟩, few, by rw [Shape.denseStrides_eq_ok sizes]⟩
  · rintro ⟨count, counted, ⟨strides, sizes⟩, few, rfl⟩
    exact ⟨count, counted, strides, sizes, _, ⟨few, rfl⟩, by rw [Shape.denseStrides_eq_ok sizes]⟩

theorem ofValues_eq_ok {elem : ElemType} :
    ofValues elem shape values = .ok t ↔ sizeProduct shape = .ok values.length ∧ ∃ blank,
    zeros elem shape = .ok blank ∧ blank.store ((List.range values.length).zip values) = .ok t := by
  rw [ofValues, bind_eq_ok]
  constructor
  · rintro ⟨count, counted, made⟩
    obtain ⟨length, made⟩ := unless_eq_ok.mp made
    obtain rfl := not_not.mp length
    exact ⟨counted, bind_eq_ok.mp made⟩
  · rintro ⟨counted, made⟩
    exact ⟨_, counted, unless_eq_ok.mpr ⟨not_not.mpr rfl, bind_eq_ok.mpr made⟩⟩

theorem reshape_eq_ok : t.reshape shape = .ok u ↔ ∃ values v, t.values = .ok values ∧
    ofValues t.elem shape values = .ok v ∧ u = v.withStorage t.storage := by
  simp only [reshape, bind_eq_ok, unless_eq_ok, not_not, Outcome.pure_eq, Except.ok.injEq]
  constructor
  · rintro ⟨count, -, _, -, -, values, known, v, made, rfl⟩
    exact ⟨values, v, known, made, rfl⟩
  · rintro ⟨values, v, known, made, rfl⟩
    exact ⟨_, (ofValues_eq_ok.mp made).1, _, (count_of_values known).1, rfl, values, known, v, made,
      rfl⟩

theorem ofValues_laidOut {elem : ElemType} (made : ofValues elem shape values = .ok t) :
    t.elem = elem ∧ t.shape = shape ∧ t.strides = Shape.rowMajor shape ∧ t.storage = .cpuHeap ∧
    t.bytes.size = values.length * elem.width := by
  obtain ⟨counted, blank, zeros, stored⟩ := ofValues_eq_ok.mp made
  obtain ⟨count, counted', -, -, rfl⟩ := zeros_eq_ok.mp zeros
  cases counted.symm.trans counted'
  have same := laidOutAs_store stored
  exact ⟨same.elem, same.shape, same.strides, same.storage, same.size.trans Array.size_replicate⟩

theorem ofDescriptor_rowMajor (strides : d.strides = Shape.rowMajor d.shape)
    (counted : sizeProduct d.shape = .ok count)
    (made : ofDescriptor d = .ok t) : count < indexBound ∧ t.elem = d.elem ∧ t.shape = d.shape ∧
    (count * 24 < indexBound → t.Dense count) := by
  obtain ⟨length, known, few, rfl⟩ := ofDescriptor_eq_ok.mp made
  rw [Descriptor.bufferLength, strides] at known
  obtain rfl : length = count :=
    (Shape.bufferLength_rowMajor known).trans (eq_prod_of_sizeProduct counted).symm
  exact ⟨(Nat.le_mul_of_pos_right _ d.elem.width_pos).trans_lt few, rfl, rfl,
    fun listable => ⟨⟨counted, listable⟩, strides, Array.size_replicate⟩⟩

theorem exists_ofScalar (s : Scalar) : ∃ t, ofScalar s = .ok t ∧ t.shape = [1] ∧ t.elem = s.elem ∧
    t.values = .ok [s.elem.recode s.value] := by
  have few : 1 * s.elem.width < indexBound := by cases s.elem <;> decide
  have dense : Dense ⟨s.elem, [1], [1], .cpuHeap, Array.replicate (1 * s.elem.width) 0⟩ 1 :=
    ⟨⟨rfl, by decide⟩, rfl, Array.size_replicate⟩
  obtain ⟨t, assigned, same, holds⟩ := dense.assign (rfl : [s.value].length = 1)
  refine ⟨t, ?_, same.shape, same.elem, holds⟩
  rw [ofScalar, zeros_eq_ok.mpr ⟨1, rfl, ⟨_, rfl⟩, few, rfl⟩, ok_bind]
  rw [Tensor.assign, dense.offsets, ok_bind] at assigned
  exact (bind_pure _).symm.trans assigned

end Tensor

theorem Effect.copied_blank {source target : String} {d' : Descriptor} {symbols : Symbols}
    (strides : d'.strides = Shape.rowMajor d'.shape) (counted : sizeProduct d'.shape = .ok count)
    (few : count * 24 < indexBound)
    (blank : Tensor.ofDescriptor d' = .ok u) (shaped : t.shape = d.shape)
    (same : d.shape = d'.shape) :
    (∀ v, copied (.full source d) (.full target d') symbols t u = .ok v → t.values.Succeeds) ∧
    ∀ values, t.values = .ok values →
      ∃ v, copied (.full source d) (.full target d') symbols t u = .ok v ∧ v.Dense count ∧
      v.elem = d'.elem ∧ v.shape = d'.shape ∧ v.values = .ok (values.map d'.elem.recode) := by
  obtain ⟨-, typed, shaped', dense⟩ := Tensor.ofDescriptor_rowMajor strides counted blank
  have dense := dense few
  have counts : t.Counts count := ⟨by rw [shaped, same, counted], few⟩
  have full {v : Tensor} := @copied_full source target d d' count symbols t u v shaped shaped'
    counts dense.toCounts
  refine ⟨fun v copied => ?_, fun values read => ?_⟩
  · obtain ⟨values, read, -⟩ := full.mp copied
    exact ⟨values, read⟩
  · obtain ⟨v, assigned, laidOut, holds⟩ := dense.assign (counts.length_values read)
    exact ⟨v, full.mpr ⟨values, read, assigned⟩, dense.laidOutAs laidOut, laidOut.elem.trans typed,
      laidOut.shape.trans shaped', by rw [holds, typed]⟩

end TraceFlow
