import TraceFlow.Proofs.StridedArrays
import TraceFlow.Proofs.WordArithmetic

set_option autoImplicit false

namespace TraceFlow

open Kernel (Whole)

theorem writeWord_wordAt {bytes : Array UInt8} {start count n : Nat}
    (same : n % 256 ^ count = wordAt bytes start count) :
    writeWord bytes start count n = bytes := by
  induction count generalizing start n with
  | zero => rfl
  | succ count ih =>
    rw [wordAt, Nat.pow_succ', Nat.mod_mul] at same
    have byte := (bytes.getD start 0).toNat_lt
    have low : n % 256 = (bytes.getD start 0).toNat := by omega
    have kept : bytes.setIfInBounds start (bytes.getD start 0) = bytes := by
      ext i inside inside'
      · exact Array.size_setIfInBounds
      · rw [Array.getElem_setIfInBounds inside']
        split <;> simp_all
    rw [writeWord, low, Nat.toUInt8_eq, UInt8.ofNat_toNat, kept, ih (by omega)]

theorem Datum.toBool_eq {d : Datum} (number : Whole d) : d.toBool = decide (d.toInt ≠ 0) := by
  rw [Bool.eq_iff_iff, decide_eq_true_iff]
  cases d with
  | bool v => cases v <;> decide
  | int v => simp [toBool, toInt, ← Int64.toInt_inj]
  | uint v => simp [toBool, toInt, ← UInt64.toNat_inj]
  | float v => exact number.elim

theorem Datum.cast_eq_ofInt {t : ElemType} {d : Datum} (whole : t.isFloat = false)
    (number : Whole d) : d.cast t = t.ofInt d.toInt := by
  cases integer : t.isInteger with
  | true => exact (stands_self number).cast_eq integer
  | false =>
    obtain rfl := ElemType.eq_bool whole integer
    exact congrArg _ (toBool_eq number)

namespace Tensor

variable {t : Tensor}

-- A truth value is stored as one of two bytes.
theorem Built.bit (built : t.Built) : t.elem = .bool → ∀ i, t.bytes.getD i 0 < 2 := by
  have blank (size i : Nat) : (Array.replicate size (0 : UInt8)).getD i 0 < 2 := by
    rw [Array.getD_eq_getD_getElem?, Array.getElem?_replicate]
    split <;> decide
  refine built.closed (P := fun t => t.elem = .bool → ∀ i, t.bytes.getD i 0 < 2) ?_ ?_ ?_
    fun _ bits => bits
  · intro elem shape t made _
    obtain ⟨count, -, -, -, rfl⟩ := zeros_eq_ok.mp made
    exact blank _
  · intro d t made _
    obtain ⟨length, -, -, rfl⟩ := ofDescriptor_eq_ok.mp made
    exact blank _
  · intro t u offset d bits written bool i
    rw [(laidOutAs_set written).elem] at bool
    obtain ⟨-, rfl⟩ := set_eq_ok.mp written
    have byte : (t.elem.encode d % 256).toUInt8 < 2 := by
      rw [bool, ElemType.encode, Datum.cast]
      cases d.toBool <;> decide
    have kept := bits bool i
    simp only [bool, ElemType.width, writeWord, Array.getD_eq_getD_getElem?,
      Array.getElem?_setIfInBounds] at byte kept ⊢
    grind

theorem Built.encode_datum (built : t.Built) (whole : t.elem.isFloat = false) (offset : Nat) :
    t.elem.encode (t.datum offset) % 256 ^ t.elem.width = wordAt t.bytes
      (offset * t.elem.width) t.elem.width := by
  cases integer : t.elem.isInteger with
  | true => exact ElemType.encode_decode integer (wordAt_lt ..)
  | false =>
    have bool := ElemType.eq_bool whole integer
    have bit := UInt8.lt_iff_toNat_lt.mp (built.bit bool offset)
    simp only [datum, bool, ElemType.width, wordAt, Nat.mul_one]
    generalize (t.bytes.getD offset 0).toNat = byte at bit
    obtain rfl | rfl := Nat.le_one_iff_eq_zero_or_eq_one.mp (Nat.le_of_lt_succ bit)
    · rfl
    · rfl

theorem stored_elements (whole : t.elem.isFloat = false) :
    (∀ offset < t.bufferCount, ∀ d, Whole d → ∃ u, t.set offset d = .ok u ∧
      u.get offset = .ok (d.cast t.elem) ∧ ∀ other, other ≠ offset → u.get other = t.get other) ∧
    (∀ d, Whole d → d.cast t.elem = t.elem.ofInt d.toInt) ∧
    (t.Built → ∀ offset < t.bufferCount, ∃ d, t.get offset = .ok d ∧ t.set offset d = .ok t) := by
  have reaches {offset : Nat} (inside : offset < t.bufferCount) : t.Reaches offset :=
    (Nat.le_div_iff_mul_le t.elem.width_pos).mp inside
  refine ⟨fun offset inside d _ => ?_, fun d => Datum.cast_eq_ofInt whole,
    fun built offset inside => ?_⟩
  · obtain ⟨u, written⟩ := succeeds_set.mpr (reaches inside)
    refine ⟨u, written, ?_, fun other apart => ?_⟩
    · rw [get_set written, if_pos rfl, ElemType.recode_eq_cast whole]
    · rw [get_set written, if_neg apart]
  · refine ⟨_, (reaches inside).get, ?_⟩
    rw [set_eq_ok, writeWord_wordAt (built.encode_datum whole offset)]
    exact ⟨reaches inside, rfl⟩

theorem stored_elements_wrapping : ∃ t u, Tensor.zeros .int8 [2] = .ok t ∧ t.set 0
    (.int 130) = .ok u ∧ u.get 0 = .ok (.int (-126)) ∧
    u.get 1 = t.get 1 ∧ u.set 0 (.int (-126)) = .ok u := by
  have made : Tensor.zeros .int8 [2] = .ok ⟨.int8, [2], [1], .cpuHeap, #[0, 0]⟩ := rfl
  obtain ⟨stores, cast, -⟩ := stored_elements (t := ⟨.int8, [2], [1], .cpuHeap, #[0, 0]⟩) rfl
  obtain ⟨u, written, here, there⟩ := stores 0 (by decide) (.int 130) trivial
  have same := laidOutAs_set written
  obtain ⟨-, -, back⟩ := stored_elements (t := u) (same.elem ▸ rfl)
  obtain ⟨d, read, rewritten⟩ :=
    back (.set (.zeros made) written) 0 (by rw [bufferCount, same.elem, same.size]; decide)
  cases here.symm.trans read
  exact ⟨_, u, made, written, here, there 1 (by decide), rewritten⟩

end Tensor

end TraceFlow
