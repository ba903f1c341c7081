import Mathlib.Data.Int.Bitwise
import Mathlib.Data.Int.ModEq
import Mathlib.RingTheory.Coprime.Lemmas
import TraceFlow.Proofs.WordOperands

set_option autoImplicit false

namespace TraceFlow

open Kernel

-- The number that a datum stands for; a float stands for none.
def Datum.toInt : Datum → Int
  | .bool v => v.toNat
  | .int v => v.toInt
  | .uint v => v.toNat
  | .float _ => 0

def ElemType.ofInt (t : ElemType) (n : Int) : Datum :=
  if t.isSigned then .int (Int64.ofInt (n.bmod (2 ^ (8 * t.width))))
  else if t.isUnsigned then .uint (UInt64.ofNat (n % (2 ^ (8 * t.width) : Nat)).toNat)
  else .bool (decide (n ≠ 0))

namespace Word

variable {w : Nat}

theorem getElem_ofInt (n : Int) {i : Nat} (inside : i < w) :
    (BitVec.ofInt w n)[i] = n.testBit i := by
  have natural (n : Nat) : (BitVec.ofNat w n)[i] = n.testBit i := by
    rw [← BitVec.getLsbD_eq_getElem, BitVec.getLsbD_ofNat]
    simp [inside]
  cases n with
  | ofNat n => simp [Int.testBit, natural]
  | negSucc n => simp [BitVec.ofInt_negSucc_eq_not_ofNat, Int.testBit, natural]

theorem ofInt_sub (x y : Int) : BitVec.ofInt w (x - y) = BitVec.ofInt w x - BitVec.ofInt w y := by
  rw [Int.sub_eq_add_neg, BitVec.ofInt_add, BitVec.ofInt_neg, BitVec.sub_eq_add_neg]

theorem ofInt_land (x y : Int) :
    BitVec.ofInt w (x.land y) = BitVec.ofInt w x &&& BitVec.ofInt w y := by
  ext i inside
  simp [getElem_ofInt, Int.testBit_land]

theorem ofInt_lor (x y : Int) :
    BitVec.ofInt w (x.lor y) = BitVec.ofInt w x ||| BitVec.ofInt w y := by
  ext i inside
  simp [getElem_ofInt, Int.testBit_lor]

theorem ofInt_lxor (x y : Int) :
    BitVec.ofInt w (x.xor y) = BitVec.ofInt w x ^^^ BitVec.ofInt w y := by
  ext i inside
  simp [getElem_ofInt, Int.testBit_lxor]

theorem ofInt_lnot (x : Int) : BitVec.ofInt w x.lnot = ~~~BitVec.ofInt w x := by
  ext i inside
  simp [getElem_ofInt, Int.testBit_lnot]

end Word

namespace Datum

variable {d : Datum} {n : Int}

structure Stands (d : Datum) (n : Int) : Prop where
  whole : Whole d
  bits : d.toUInt64.toBitVec = BitVec.ofInt 64 n

theorem bits_int (v : Int64) : v.toBitVec = BitVec.ofInt 64 v.toInt :=
  (BitVec.ofInt_toInt).symm

theorem bits_uint (v : UInt64) : v.toBitVec = BitVec.ofInt 64 v.toNat := by
  refine BitVec.eq_of_toNat_eq ?_
  simp

theorem stands_int {v : Int64} (bits : v.toBitVec = BitVec.ofInt 64 n) : (Datum.int v).Stands n :=
  ⟨trivial, bits⟩

theorem stands_uint {v : UInt64} (bits : v.toBitVec = BitVec.ofInt 64 n) :
    (Datum.uint v).Stands n :=
  ⟨trivial, bits⟩

theorem stands_self (whole : Whole d) : d.Stands d.toInt := by
  cases d with
  | bool v => exact ⟨trivial, by cases v <;> rfl⟩
  | int v => exact stands_int (bits_int v)
  | uint v => exact stands_uint (bits_uint v)
  | float v => exact whole.elim

namespace Stands

variable (stands : d.Stands n)

include stands

theorem signed : d.toInt64.toBitVec = BitVec.ofInt 64 n := by
  rw [← stands.bits]
  cases d with
  | bool v => cases v <;> rfl
  | int v | uint v => rfl
  | float v => exact stands.whole.elim

theorem modEq : d.toInt ≡ n [ZMOD 2 ^ 64] := by
  have same : BitVec.ofInt 64 d.toInt = BitVec.ofInt 64 n :=
    (stands_self stands.whole).bits.symm.trans stands.bits
  have equal := congrArg BitVec.toNat same
  rw [BitVec.toNat_ofInt, BitVec.toNat_ofInt] at equal
  rw [Int.ModEq]
  omega

theorem cast_eq {t : ElemType} (integer : t.isInteger = true) : d.cast t = t.ofInt n := by
  have divides : 2 ^ (8 * t.width) ∣ 2 ^ 64 := by cases t <;> decide
  cases signed : t.isSigned with
  | true =>
    obtain ⟨kept, same, value⟩ : ∃ kept, d.cast t = .int kept ∧
      kept.toInt = d.toInt64.toInt.bmod (2 ^ (8 * t.width)) := by
      cases t <;> first | contradiction | exact ⟨_, rfl, by simp [ElemType.width]⟩
    rw [same, ElemType.ofInt, if_pos signed, ← Int64.ofInt_toInt kept, value,
      ← Int64.toInt_toBitVec, stands.signed, BitVec.toInt_ofInt,
      Int.bmod_bmod_of_dvd divides]
  | false =>
    have unsigned : t.isUnsigned = true := by simpa [ElemType.isInteger, signed] using integer
    obtain ⟨kept, same, value⟩ : ∃ kept, d.cast t = .uint kept ∧
      kept.toNat = d.toUInt64.toNat % 2 ^ (8 * t.width) := by
      cases t <;> first | contradiction | exact ⟨_, rfl, by simp [ElemType.width]⟩
    rw [same, ElemType.ofInt, if_neg (by simp [signed]), if_pos unsigned]
    have bits : (d.toUInt64.toNat : Int) = n % (2 ^ 64 : Nat) := by
      rw [← UInt64.toNat_toBitVec, stands.bits, BitVec.toNat_ofInt]
      omega
    have reduced : (n % (2 ^ (8 * t.width) : Nat)).toNat = kept.toNat := by
      have : ((kept.toNat : Nat) : Int) = n % (2 ^ (8 * t.width) : Nat) := by
        rw [value, Int.natCast_mod, bits, Int.emod_emod_of_dvd _ (by exact_mod_cast divides)]
      omega
    rw [reduced, UInt64.ofNat_toNat]

end Stands

-- Two data of one integer type: both signed or both unsigned.
inductive Matched : Datum → Datum → Prop
  | ints (a b : Int64) : Matched (.int a) (.int b)
  | uints (a b : UInt64) : Matched (.uint a) (.uint b)

theorem Matched.left {a b : Datum} (matched : Matched a b) : Whole a := by
  cases matched <;> trivial

theorem Matched.right {a b : Datum} (matched : Matched a b) : Whole b := by
  cases matched <;> trivial

end Datum

namespace Kernel

open Datum (Matched Stands stands_int stands_uint bits_int bits_uint)

variable {a b : Datum} {x y : Int} {op : ArithOp} {n : Int}

def ArithOp.exact (x y : Int) : ArithOp → Int
  | .add => x + y
  | .sub => x - y
  | .mul => x * y
  | .div => x.tdiv y
  | .rem => x.tmod y
  | .pow => x ^ y.toNat
  | .bitOr => x.lor y
  | .bitAnd => x.land y
  | .bitXor => x.xor y

-- The exact result of an operator on numbers; a truth value is no number.
def UnaryOp.integer? (x : Int) : UnaryOp → Option Int
  | .neg => some (-x)
  | .pos => some x
  | .invert => some x.lnot
  | .not => none

theorem ArithOp.onInts_stands (low : op.ordered = false) {u v : Int64}
    (left : u.toBitVec = BitVec.ofInt 64 x)
    (right : v.toBitVec = BitVec.ofInt 64 y) : ∃ d, op.onInts u v = .ok d ∧ d.Stands
      (op.exact x y) := by
  cases op with
  | div | rem | pow => cases low
  | add => exact ⟨_, rfl, stands_int (by rw [exact, BitVec.ofInt_add, ← left, ← right]; rfl)⟩
  | sub => exact ⟨_, rfl, stands_int (by rw [exact, Word.ofInt_sub, ← left, ← right]; rfl)⟩
  | mul => exact ⟨_, rfl, stands_int (by rw [exact, BitVec.ofInt_mul, ← left, ← right]; rfl)⟩
  | bitOr => exact ⟨_, rfl, stands_int (by rw [exact, Word.ofInt_lor, ← left, ← right]; rfl)⟩
  | bitAnd => exact ⟨_, rfl, stands_int (by rw [exact, Word.ofInt_land, ← left, ← right]; rfl)⟩
  | bitXor => exact ⟨_, rfl, stands_int (by rw [exact, Word.ofInt_lxor, ← left, ← right]; rfl)⟩

-- Unsigned words are computed as the signed words of their bits are.
theorem ArithOp.onWords_stands (low : op.ordered = false) {u v : UInt64}
    (left : u.toBitVec = BitVec.ofInt 64 x)
    (right : v.toBitVec = BitVec.ofInt 64 y) : ∃ d, op.onWords u v = .ok d ∧ d.Stands
      (op.exact x y) := by
  obtain ⟨d, made, stands⟩ := onInts_stands low (u := u.toInt64) (v := v.toInt64) left right
  cases op with
  | div | rem | pow => cases low
  | add | sub | mul | bitOr | bitAnd | bitXor =>
    cases made
    exact ⟨_, rfl, stands_uint stands.bits⟩

theorem ArithOp.onBools_stands (low : op.ordered = false) {u v : Bool}
    (left : (Datum.bool u).Stands x)
    (right : (Datum.bool v).Stands y) : ∃ d, op.onBools u v = .ok d ∧ d.Stands (op.exact x y) := by
  have computed := onInts_stands low left.signed right.signed
  cases op with
  | div | rem | pow => cases low
  | add | sub | mul => exact computed
  | bitOr =>
    exact ⟨_, rfl,
      trivial,
      by rw [exact, Word.ofInt_lor, ← left.bits, ← right.bits]; cases u <;> cases v <;> rfl⟩
  | bitAnd =>
    exact ⟨_, rfl,
      trivial,
      by rw [exact, Word.ofInt_land, ← left.bits, ← right.bits]; cases u <;> cases v <;> rfl⟩
  | bitXor =>
    exact ⟨_, rfl,
      trivial,
      by rw [exact, Word.ofInt_lxor, ← left.bits, ← right.bits]; cases u <;> cases v <;> rfl⟩

theorem ArithOp.apply_stands (low : op.ordered = false) (left : a.Stands x) (right : b.Stands y) :
    ∃ d, op.apply a b = .ok d ∧ d.Stands (op.exact x y) := by
  have truth (v : Bool) : v.toUInt64 = (Datum.bool v).toUInt64 := by cases v <;> rfl
  have float {v : Float} {z : Int} (stands : (Datum.float v).Stands z) : False := stands.whole
  cases a with
  | float u => exact (float left).elim
  | bool u =>
    cases b with
    | float v => exact (float right).elim
    | bool v => exact onBools_stands low left right
    | int v => exact onInts_stands low left.signed right.signed
    | uint v => exact onWords_stands low (truth u ▸ left.bits) right.bits
  | int u =>
    cases b with
    | float v => exact (float right).elim
    | bool v | int v | uint v => exact onInts_stands low left.signed right.signed
  | uint u =>
    cases b with
    | float v => exact (float right).elim
    | bool v => exact onWords_stands low left.bits (truth v ▸ right.bits)
    | int v => exact onInts_stands low left.signed right.signed
    | uint v => exact onWords_stands low left.bits right.bits

theorem UnaryOp.apply_stands {op : UnaryOp} (exact : op.integer? x = some n) (stands : a.Stands x) :
    ∃ d, op.apply a = .ok d ∧ d.Stands n := by
  cases op with
  | not => cases exact
  | pos =>
    cases exact
    cases a with
    | bool v => exact ⟨_, rfl, stands_int stands.signed⟩
    | int v | uint v => exact ⟨_, rfl, stands⟩
    | float v => exact stands.whole.elim
  | neg =>
    cases exact
    cases a with
    | bool v | int v => exact ⟨_, rfl, stands_int (by rw [BitVec.ofInt_neg, ← stands.signed]; rfl)⟩
    | uint v => exact ⟨_, rfl, stands_uint (by rw [BitVec.ofInt_neg, ← stands.bits]; rfl)⟩
    | float v => exact stands.whole.elim
  | invert =>
    cases exact
    cases a with
    | bool v | int v => exact ⟨_, rfl, stands_int (by rw [Word.ofInt_lnot, ← stands.signed]; rfl)⟩
    | uint v => exact ⟨_, rfl, stands_uint (by rw [Word.ofInt_lnot, ← stands.bits]; rfl)⟩
    | float v => exact stands.whole.elim

namespace Expr

def integer? (scope : Scope) : Expr → Option Int
  | .const d => number? d
  | .name n => (scope.value? n).bind number?
  | .unary op e => (e.integer? scope).bind fun x => op.integer? x
  | .arith op e e' =>
    if op.ordered then none
    else (e.integer? scope).bind fun x => (e'.integer? scope).map fun y => op.exact x y
  | _ => none
where
  number? : Datum → Option Int
    | .float _ => none
    | d => some d.toInt

theorem stands_number {d : Datum} (exact : integer?.number? d = some n) : d.Stands n := by
  cases d with
  | bool v | int v | uint v =>
    cases exact
    exact Datum.stands_self trivial
  | float v => cases exact

theorem eval_stands {scope : Scope} {e : Expr} (exact : e.integer? scope = some n) :
    ∃ d, e.eval scope = .ok d ∧ d.Stands n := by
  fun_induction integer? scope e generalizing n with
  | case1 d => exact ⟨d, rfl, stands_number exact⟩
  | case2 name =>
    obtain ⟨d, bound, exact⟩ := Option.bind_eq_some_iff.mp exact
    exact ⟨d, by rw [eval, bound], stands_number exact⟩
  | case3 op e ih =>
    obtain ⟨x, operand, exact⟩ := Option.bind_eq_some_iff.mp exact
    obtain ⟨a, evaluated, stands⟩ := ih operand
    obtain ⟨d, applied, stands⟩ := UnaryOp.apply_stands exact stands
    exact ⟨d, by rw [eval, evaluated, ok_bind, applied], stands⟩
  | case4 => cases exact
  | case5 op e e' low ih ih' =>
    obtain ⟨x, left, exact⟩ := Option.bind_eq_some_iff.mp exact
    obtain ⟨y, right, rfl⟩ := Option.map_eq_some_iff.mp exact
    obtain ⟨a, evaluated, stands⟩ := ih left
    obtain ⟨b, evaluated', stands'⟩ := ih' right
    obtain ⟨d, applied, stands⟩ := ArithOp.apply_stands (Bool.eq_false_iff.mpr low) stands stands'
    exact ⟨d, by rw [eval, evaluated, evaluated', ok_bind, ok_bind, applied], stands⟩
  | case6 => cases exact

theorem eval_exact {scope : Scope} {e : Expr} {n : Int} (exact : e.integer? scope = some n) :
    ∃ d, e.eval scope = .ok d ∧ Whole d ∧ d.toInt ≡ n [ZMOD 2 ^ 64] ∧ ∀ t : ElemType,
    t.isInteger = true → d.cast t = t.ofInt n := by
  obtain ⟨d, evaluated, stands⟩ := eval_stands exact
  exact ⟨d, evaluated, stands.whole, stands.modEq, fun t integer => stands.cast_eq integer⟩

def wordScope : Scope where
  value? name := if name = "u" then some (.uint 0xffffffffffffffff) else if name = "v" then
    some (.int (-0x8000000000000000)) else none
  element name _ := halt (.notArrayConnector name)

theorem eval_exact_mixed :
    let e := Expr.arith .mul (.arith .bitXor (.unary .invert (.const (.bool true))) (.name "u"))
      (.name "v")
    e.integer? wordScope = some (2 ^ 127 - 2 ^ 63) ∧ ∃ d, e.eval wordScope = .ok d ∧ Whole d ∧
    d.toInt ≡ 2 ^ 127 - 2 ^ 63 [ZMOD 2 ^ 64] ∧
      ∀ t : ElemType, t.isInteger = true → d.cast t = t.ofInt (2 ^ 127 - 2 ^ 63) := by
  have exact : (Expr.arith .mul (.arith .bitXor (.unary .invert (.const (.bool true))) (.name "u"))
    (.name "v")).integer? wordScope =
      some (2 ^ 127 - 2 ^ 63) := rfl
  exact ⟨exact, eval_exact exact⟩

end Expr

section Powers

variable {bits k : Nat} {base : UInt64}

theorem bits_wrapPow (small : k < 2 ^ bits) (stands : base.toBitVec = BitVec.ofInt 64 x) :
    (wrapPow bits base k).toBitVec = BitVec.ofInt 64 (x ^ k) := by
  induction bits generalizing base x k with
  | zero =>
    obtain rfl : k = 0 := by simpa using small
    rw [pow_zero]
    rfl
  | succ bits ih =>
    have square : (base * base).toBitVec = BitVec.ofInt 64 (x * x) := by
      rw [BitVec.ofInt_mul, ← stands]
      rfl
    have rest := ih (k := k / 2) (by omega) square
    have halves : x ^ k = x ^ (k % 2) * (x * x) ^ (k / 2) := by
      rw [← pow_two, ← pow_mul, ← pow_add, Nat.mod_add_div]
    rw [wrapPow, halves, BitVec.ofInt_mul, ← rest]
    rcases Nat.mod_two_eq_zero_or_one k with even | odd
    · simp [even]
    · simp [odd, stands]

def exponentLimit : Nat := 0xffffffff

theorem bits_powWord (stands : base.toBitVec = BitVec.ofInt 64 x) (k : Nat) :
    (powWord base k).toBitVec = BitVec.ofInt 64 (x ^ min k exponentLimit) :=
  bits_wrapPow (lt_of_le_of_lt (min_le_right _ _) (by decide)) stands

-- An odd number can be cancelled, and the power of an even one is a multiple of 2 ^ 64 long before
-- the limit.
theorem pow_min_modEq_iff (x : Int) (k : Nat) :
    x ^ min k exponentLimit ≡ x ^ k [ZMOD 2 ^ 64] ↔ k ≤ exponentLimit ∨ 2 ∣ x ∨ x ^
      (k - exponentLimit) ≡ 1 [ZMOD 2 ^ 64] := by
  by_cases kept : k ≤ exponentLimit
  · simp [kept, Int.ModEq.refl]
  have split : x ^ k = x ^ exponentLimit * x ^ (k - exponentLimit) := by
    rw [← pow_add, Nat.add_sub_cancel' (by omega)]
  rw [min_eq_right (by omega), split]
  constructor
  · intro same
    by_cases even : 2 ∣ x
    · exact .inr (.inl even)
    have coprime : IsCoprime (2 : Int) x := ⟨-(x / 2), 1, by omega⟩
    have divides : 2 ^ 64 ∣ x ^ exponentLimit * (x ^ (k - exponentLimit) - 1) := by
      rw [mul_sub, mul_one]
      exact Int.modEq_iff_dvd.mp same
    exact .inr (.inr (Int.modEq_iff_dvd.mpr (coprime.pow.dvd_of_dvd_mul_left divides)).symm)
  · rintro (kept' | even | one)
    · exact absurd kept' kept
    · have multiple : (2 : Int) ^ 64 ∣ x ^ exponentLimit :=
        (pow_dvd_pow_of_dvd even 64).trans (pow_dvd_pow x (by decide))
      exact ((Int.modEq_zero_iff_dvd.mpr multiple).trans
        (Int.modEq_zero_iff_dvd.mpr (multiple.mul_right _)).symm)
    · simpa using (one.symm.mul_left (x ^ exponentLimit))

-- A power of two words is a word of their kind.
theorem ArithOp.pow_exact_iff (matched : Matched a b) (defined : 0 ≤ b.toInt) :
    ∃ d, ArithOp.pow.apply a b = .ok d ∧ Matched a d ∧
      (d.toInt ≡ a.toInt ^ b.toInt.toNat [ZMOD 2 ^ 64] ↔
        b.toInt.toNat ≤ exponentLimit ∨ 2 ∣ a.toInt ∨ a.toInt ^ (b.toInt.toNat - exponentLimit) ≡ 1
          [ZMOD 2 ^ 64]) := by
  have decided {d : Datum} (stands : d.Stands (a.toInt ^ min b.toInt.toNat exponentLimit)) :=
    (pow_min_modEq_iff a.toInt b.toInt.toNat).symm.trans
      ⟨fun same => stands.modEq.trans same, fun same => stands.modEq.symm.trans same⟩
  cases matched with
  | ints u v =>
    have positive : 0 ≤ v := Int64.le_iff_toInt_le.mpr defined
    refine ⟨.int (powWord u.toUInt64 v.toInt.toNat).toInt64, if_pos positive, .ints _ _,
      (decided (stands_int ?_)).symm⟩
    exact bits_powWord (bits_int u) _
  | uints u v =>
    exact ⟨_, rfl, .uints _ _, (decided (stands_uint (bits_powWord (bits_uint u) _))).symm⟩

theorem ArithOp.pow_exact_iff_largest :
    let a := Datum.uint 3
    let b := Datum.uint 0xffffffff
    Matched a b ∧ 0 ≤ b.toInt ∧ ∃ d, ArithOp.pow.apply a b = .ok d ∧ Matched a d ∧
      (d.toInt ≡ a.toInt ^ b.toInt.toNat [ZMOD 2 ^ 64] ↔
        b.toInt.toNat ≤ exponentLimit ∨ 2 ∣ a.toInt ∨
        a.toInt ^ (b.toInt.toNat - exponentLimit) ≡ 1 [ZMOD 2 ^ 64]) :=
  ⟨.uints _ _, by decide, ArithOp.pow_exact_iff (.uints _ _) (by decide)⟩

theorem ArithOp.pow_not_exact :
    ¬ ∀ a b : Int64, 0 ≤ b → ∃ v, ArithOp.pow.apply (.int a) (.int b) = .ok (.int v) ∧
    v.toInt ≡ a.toInt ^ b.toInt.toNat [ZMOD 2 ^ 64] := by
  intro exact
  obtain ⟨v, applied, same⟩ := exact (-1) 0x100000000 (by decide)
  obtain rfl : v = -1 := by
    have cut : ArithOp.pow.apply (.int (-1)) (.int 0x100000000) = .ok (.int (-1)) := rfl
    rw [cut] at applied
    cases applied
    rfl
  have even : ((-1 : Int64).toInt) ^ ((0x100000000 : Int64).toInt.toNat) = 1 :=
    Even.neg_one_pow ⟨0x80000000, rfl⟩
  rw [even] at same
  exact absurd same (by decide)

end Powers

end Kernel

end TraceFlow
