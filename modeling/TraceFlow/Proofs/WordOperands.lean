import Mathlib.Data.Option.Basic
import TraceFlow.Proofs.KernelNames

set_option autoImplicit false

namespace TraceFlow

namespace Word

variable {a b : UInt64}

theorem toInt_toInt64 (small : a.toNat < 0x8000000000000000) : a.toInt64.toInt = a.toNat := by
  change a.toBitVec.toInt = a.toBitVec.toNat
  rw [BitVec.toInt_eq_toNat_of_lt]
  change 2 * a.toNat < 2 ^ 64
  omega

theorem toInt64_nonneg (small : a.toNat < 0x8000000000000000) : 0 ≤ a.toInt64 := by
  rw [Int64.le_iff_toInt_le, toInt_toInt64 small]
  exact Int.natCast_nonneg _

theorem toInt64_lt_iff (small : a.toNat < 0x8000000000000000)
    (small' : b.toNat < 0x8000000000000000) : a.toInt64 < b.toInt64 ↔ a < b := by
  rw [Int64.lt_iff_toInt_lt, toInt_toInt64 small, toInt_toInt64 small', UInt64.lt_iff_toNat_lt]
  exact Int.ofNat_lt

theorem toInt64_inj : a.toInt64 = b.toInt64 ↔ a = b :=
  ⟨fun same => congrArg Int64.toUInt64 same, fun same => same ▸ rfl⟩

theorem toInt64_eq_zero : a.toInt64 = 0 ↔ a = 0 :=
  toInt64_inj

theorem msb_eq_false (small : a.toNat < 0x8000000000000000) : a.toBitVec.msb = false :=
  BitVec.msb_eq_false_iff_two_mul_lt.mpr (by change 2 * a.toNat < 2 ^ 64; omega)

theorem toInt64_div (small : a.toNat < 0x8000000000000000) (small' : b.toNat < 0x8000000000000000) :
    (a / b).toInt64 = a.toInt64 / b.toInt64 := by
  apply Int64.toBitVec_inj.mp
  change a.toBitVec / b.toBitVec = a.toBitVec.sdiv b.toBitVec
  rw [BitVec.sdiv_eq, msb_eq_false small, msb_eq_false small']
  rfl

theorem toInt64_mod (small : a.toNat < 0x8000000000000000) (small' : b.toNat < 0x8000000000000000) :
    (a % b).toInt64 = a.toInt64 % b.toInt64 := by
  apply Int64.toBitVec_inj.mp
  change a.toBitVec % b.toBitVec = a.toBitVec.srem b.toBitVec
  rw [BitVec.srem_eq, msb_eq_false small, msb_eq_false small']

end Word

namespace Datum

-- The same bits, read as an unsigned or as a signed number.
inductive SameBits : Datum → Datum → Prop
  | same (d : Datum) : SameBits d d
  | word (w : UInt64) : SameBits (.uint w) (.int w.toInt64)

inductive SameNumber : Datum → Datum → Prop
  | same (d : Datum) : SameNumber d d
  | word {w : UInt64} : w.toNat < 0x8000000000000000 → SameNumber (.uint w) (.int w.toInt64)

def Signed : Datum → Prop
  | .int _ => True
  | .float _ => True
  | _ => False

def Small : Datum → Prop
  | .uint w => w.toNat < 0x8000000000000000
  | _ => True

variable {d d' : Datum}

theorem Signed.small (signed : Signed d) : Small d := by
  cases d with
  | uint w => exact signed.elim
  | bool _ | int _ | float _ => exact trivial

theorem SameNumber.sameBits (same : SameNumber d d') : SameBits d d' := by
  cases same with
  | same => exact .same d
  | word => exact .word _

theorem SameBits.toBool_eq (same : SameBits d d') : d.toBool = d'.toBool := by
  cases same with
  | same => rfl
  | word w =>
    rw [Bool.eq_iff_iff]
    simp only [toBool, bne_iff_ne, ne_eq, Word.toInt64_eq_zero]

theorem SameBits.cast_eq (same : SameBits d d') {t : ElemType} (whole : t.isFloat = false) :
    d.cast t = d'.cast t := by
  have truth := same.toBool_eq
  cases same with
  | same => rfl
  | word w =>
    cases t with
    | bool => exact congrArg Datum.bool truth
    | float32 => cases whole
    | float64 => cases whole
    | int8 | int16 | int32 | int64 | uint8 | uint16 | uint32 | uint64 => rfl

theorem SameNumber.toFloat_eq (same : SameNumber d d') : d.toFloat = d'.toFloat := by
  cases same with
  | same => rfl
  | @word w small =>
    have positive : ¬ w.toInt64 < 0 := Int64.not_lt.mpr (Word.toInt64_nonneg small)
    simp only [toFloat, positive, if_false]
    rfl

theorem SameNumber.cast_eq (same : SameNumber d d') (t : ElemType) : d.cast t = d'.cast t := by
  cases whole : t.isFloat with
  | false => exact same.sameBits.cast_eq whole
  | true =>
    cases t with
    | float32 | float64 => simp only [cast, same.toFloat_eq]
    | bool | int8 | int16 | int32 | int64 | uint8 | uint16 | uint32 | uint64 => cases whole

end Datum

namespace Kernel

open Datum (SameBits SameNumber Small Signed)

variable {name : String}

def Whole : Datum → Prop
  | .float _ => False
  | _ => True

variable {a a' b b' : Datum}

-- Two operands in one category, words perhaps as signed numbers.
inductive Operands.Aligned : Operands → Operands → Prop
  | same (operands : Operands) : Aligned operands operands
  | words (x y : UInt64) : Aligned (.uints x y) (.ints x.toInt64 y.toInt64)

theorem aligned_promote (same : SameNumber a a') (same' : SameNumber b b') : (promote a b).Aligned
    (promote a' b') := by
  cases same with
  | same =>
    cases same' with
    | same => exact .same _
    | @word w small =>
      cases a with
      | bool v => cases v <;> exact .words _ w
      | int v => exact .same _
      | uint v => exact .words v w
      | float v =>
        have float := (SameNumber.word small).toFloat_eq
        simp only [promote, float]
        exact .same _
  | @word w small =>
    cases same' with
    | same =>
      cases b with
      | bool v => cases v <;> exact .words w _
      | int v => exact .same _
      | uint v => exact .words w v
      | float v =>
        have float := (SameNumber.word small).toFloat_eq
        simp only [promote, float]
        exact .same _
    | @word v _ => exact .words w v

def Operands.Small : Operands → Prop
  | .uints x y => x.toNat < 0x8000000000000000 ∧ y.toNat < 0x8000000000000000
  | _ => True

theorem small_promote (small : Datum.Small a) (small' : Datum.Small b) : (promote a b).Small := by
  have truth (v : Bool) : v.toUInt64.toNat < 0x8000000000000000 := by cases v <;> decide
  cases a with
  | bool v =>
    cases b with
    | uint w => exact ⟨truth v, small'⟩
    | bool _ | int _ | float _ => exact trivial
  | int v => cases b <;> exact trivial
  | uint v =>
    cases b with
    | bool w => exact ⟨small, truth w⟩
    | uint w => exact ⟨small, small'⟩
    | int _ | float _ => exact trivial
  | float v => exact trivial

-- Operators whose result depends on the size of words, not only on their bits.
def ArithOp.ordered : ArithOp → Bool
  | .div | .rem | .pow => true
  | _ => false

def ArithOp.wraps : ArithOp → Bool
  | .div | .rem => false
  | _ => true

def CompareOp.ordered : CompareOp → Bool
  | .eq | .ne => false
  | _ => true

def UnaryOp.wraps : UnaryOp → Bool
  | .neg | .invert => true
  | _ => false

-- Results of the same bits, and the same number unless the operator wraps.
def Close (wraps : Bool) (d d' : Datum) : Prop :=
  if wraps then SameBits d d' else SameNumber d d'

theorem close_refl (wraps : Bool) (d : Datum) : Close wraps d d := by
  cases wraps with
  | true => exact SameBits.same d
  | false => exact SameNumber.same d

theorem both_refl (wraps : Bool) (o : Outcome Datum) : o.Both (Close wraps) o :=
  (Outcome.Both.refl o).imp fun d _ same => same ▸ close_refl wraps d

theorem SameNumber.close (same : SameNumber a a') (wraps : Bool) : Close wraps a a' := by
  cases wraps with
  | true => exact same.sameBits
  | false => exact same

theorem Close.mono {wraps more : Bool} (close : Close wraps a a')
    (implies : wraps = true → more = true) : Close more a a' := by
  cases wraps with
  | true => exact implies rfl ▸ close
  | false => exact SameNumber.close close more

theorem Close.sameBits {wraps : Bool} (close : Close wraps a a') : SameBits a a' := by
  cases wraps with
  | true => exact close
  | false => exact SameNumber.sameBits close

theorem powWord_small {x y : UInt64} (small : y.toNat < 0x8000000000000000) :
    ArithOp.onInts .pow x.toInt64 y.toInt64 = .ok (.int (powWord x y.toNat).toInt64) := by
  rw [ArithOp.onInts, if_pos (Word.toInt64_nonneg small), Word.toInt_toInt64 small]
  rfl

theorem div_small {x y : UInt64} (small : x.toNat < 0x8000000000000000) :
    (x / y).toNat < 0x8000000000000000 := by
  rw [UInt64.toNat_div]
  exact Nat.lt_of_le_of_lt (Nat.div_le_self _ _) small

theorem rem_small {x y : UInt64} (small : x.toNat < 0x8000000000000000) :
    (x % y).toNat < 0x8000000000000000 := by
  rw [UInt64.toNat_mod]
  exact Nat.lt_of_le_of_lt (Nat.mod_le _ _) small

theorem ArithOp.apply_close (op : ArithOp) (same : SameNumber a a') (same' : SameNumber b b')
    (small : op.ordered = true → Small a ∧ Small b) :
    (op.apply a b).Both (Close op.wraps) (op.apply a' b') := by
  have aligned := aligned_promote same same'
  have bounded : op.ordered = true → (promote a b).Small :=
    fun ordered => small_promote (small ordered).1 (small ordered).2
  unfold apply
  generalize promote a b = operands at *
  generalize promote a' b' = operands' at *
  cases aligned with
  | same => exact both_refl _ _
  | words x y =>
    cases op with
    | add | sub | mul | bitOr | bitAnd | bitXor => exact .gives (SameBits.word _)
    | pow =>
      obtain ⟨-, exponent⟩ := bounded rfl
      change Outcome.Both (Close _) _ (ArithOp.onInts .pow x.toInt64 y.toInt64)
      rw [powWord_small exponent]
      exact .gives (SameBits.word _)
    | div =>
      obtain ⟨dividend, divisor⟩ := bounded rfl
      simp only [onWords, onInts, Word.toInt64_eq_zero]
      refine .ite (fun _ => .fails _ _) fun _ => .gives ?_
      rw [← Word.toInt64_div dividend divisor]
      exact SameNumber.word (div_small dividend)
    | rem =>
      obtain ⟨dividend, divisor⟩ := bounded rfl
      simp only [onWords, onInts, Word.toInt64_eq_zero]
      refine .ite (fun _ => .fails _ _) fun _ => .gives ?_
      rw [← Word.toInt64_mod dividend divisor]
      exact SameNumber.word (rem_small dividend)

theorem ArithOp.apply_signed (op : ArithOp) (same : SameNumber a a') (same' : SameNumber b b')
    (signed : Signed b) : op.apply a b = op.apply a' b' := by
  have promoted : promote a b = promote a' b' := by
    cases same' with
    | word => exact signed.elim
    | same =>
      cases same with
      | same => rfl
      | @word w small =>
        cases b with
        | bool v => exact signed.elim
        | uint v => exact signed.elim
        | int v => rfl
        | float v => simp only [promote, (SameNumber.word small).toFloat_eq]
  rw [apply, apply, promoted]

theorem CompareOp.apply_eq (op : CompareOp) (same : SameNumber a a') (same' : SameNumber b b')
    (small : op.ordered = true → Small a ∧ Small b) : op.apply a b = op.apply a' b' := by
  have aligned := aligned_promote same same'
  have bounded : op.ordered = true → (promote a b).Small :=
    fun ordered => small_promote (small ordered).1 (small ordered).2
  unfold apply
  congr 1
  generalize promote a b = operands at *
  generalize promote a' b' = operands' at *
  cases aligned with
  | same => rfl
  | words x y =>
    -- Equality is a matter of bits; the other comparisons are of equal numbers.
    have equal : (compare x.toNat y.toNat = .eq) = (compare x.toInt64.toInt y.toInt64.toInt =
      .eq) := by
      rw [Nat.compare_eq_eq, Std.compare_eq_iff_eq, UInt64.toNat_inj, Int64.toInt_inj,
        Word.toInt64_inj]
    have order (ordered : op.ordered = true) :
      compare x.toNat y.toNat = compare x.toInt64.toInt y.toInt64.toInt := by
      obtain ⟨left, right⟩ := bounded ordered
      rw [Word.toInt_toInt64 left, Word.toInt_toInt64 right]
      simp only [compare, compareOfLessAndEq, Int.ofNat_lt, Int.natCast_inj]
    cases op with
    | eq | ne => simp only [holds, Operands.order?, bne, beq_eq_decide, Option.some.injEq, equal]
    | lt | le | gt | ge => rw [Operands.order?, Operands.order?, order rfl]

theorem UnaryOp.apply_close (op : UnaryOp) (same : SameNumber a a') :
    (op.apply a).Both (Close op.wraps) (op.apply a') := by
  have truth := same.sameBits.toBool_eq
  cases same with
  | same => exact both_refl _ _
  | word small =>
    cases op with
    | not => exact .gives (truth ▸ close_refl _ _)
    | pos => exact .gives (SameNumber.word small)
    | neg | invert => exact .gives (SameBits.word _)

theorem largest_close (same : SameNumber a a') (same' : SameNumber b b') (small : Small a)
    (small' : Small b) : SameNumber (largest a b) (largest a' b') := by
  have aligned := aligned_promote same same'
  have bounded := small_promote small small'
  unfold largest
  generalize promote a b = operands at *
  generalize promote a' b' = operands' at *
  cases aligned with
  | same => exact .same _
  | words x y =>
    simp only [Word.toInt64_lt_iff bounded.1 bounded.2]
    split
    · exact .word bounded.2
    · exact .word bounded.1

theorem smallest_close (same : SameNumber a a') (same' : SameNumber b b') (small : Small a)
    (small' : Small b) : SameNumber (smallest a b) (smallest a' b') := by
  have aligned := aligned_promote same same'
  have bounded := small_promote small small'
  unfold smallest
  generalize promote a b = operands at *
  generalize promote a' b' = operands' at *
  cases aligned with
  | same => exact .same _
  | words x y =>
    simp only [Word.toInt64_lt_iff bounded.2 bounded.1]
    split
    · exact .word bounded.2
    · exact .word bounded.1

theorem onFloat_close (f : Float → Float) (same : SameNumber a a') : SameNumber (onFloat f a)
    (onFloat f a') := by
  cases same with
  | same => exact .same _
  | word small => exact .word small

theorem magnitude_close (same : SameNumber a a') : SameNumber (magnitude a) (magnitude a') := by
  cases same with
  | same => exact .same _
  | word small =>
    simp only [magnitude, Int64.not_lt.mpr (Word.toInt64_nonneg small), if_false]
    exact .word small

theorem signOf_close (same : SameNumber a a') : SameNumber (signOf a) (signOf a') := by
  cases same with
  | same => exact .same _
  | word small =>
    simp only [signOf, Int64.not_lt.mpr (Word.toInt64_nonneg small), if_false, Word.toInt64_eq_zero]
    split
    · exact @SameNumber.word 0 (by decide)
    · exact @SameNumber.word 1 (by decide)

theorem unaryFunction_close {f : Datum → Datum} (known : unaryFunction? name = some f)
    (same : SameNumber a a') : SameNumber (f a) (f a') := by
  have float (g : Float → Datum) : SameNumber (g a.toFloat) (g a'.toFloat) :=
    same.toFloat_eq ▸ .same _
  unfold unaryFunction? at known
  split at known
  · exact Option.some.inj known ▸ onFloat_close _ same
  · exact Option.some.inj known ▸ onFloat_close _ same
  · exact Option.some.inj known ▸ onFloat_close _ same
  · exact Option.some.inj known ▸ magnitude_close same
  · exact Option.some.inj known ▸ signOf_close same
  · exact Option.some.inj known ▸ same
  · cases known
    exact float fun x => .bool x.isFinite
  · obtain ⟨entry, -, rfl⟩ := Option.map_eq_some_iff.mp known
    exact float fun x => .float (entry.2 x)

def orderedFunctions : List String :=
  ["min", "max"]

theorem binaryFunction_close {f : Datum → Datum → Datum} (known : binaryFunction? name = some f)
    (same : SameNumber a a')
    (same' : SameNumber b b') (small : name ∈ orderedFunctions → Small a ∧ Small b) :
    SameNumber (f a b) (f a' b') := by
  have float (g : Float → Float → Datum) :
    SameNumber (g a.toFloat b.toFloat) (g a'.toFloat b'.toFloat) := by
    rw [same.toFloat_eq, same'.toFloat_eq]
    exact .same _
  unfold binaryFunction? at known
  split at known
  · obtain ⟨left, right⟩ := small (by decide)
    exact Option.some.inj known ▸ smallest_close same same' left right
  · obtain ⟨left, right⟩ := small (by decide)
    exact Option.some.inj known ▸ largest_close same same' left right
  · cases known
    exact float fun x y => .float (Float.atan2 x y)
  · cases known
    exact float fun x y => .float (Elementary.nextAfter x y)
  · cases known

theorem callFunction_close (name : String) (same : SameNumber a a') :
    (callFunction name [a]).Both SameNumber (callFunction name [a']) := by
  unfold callFunction
  cases ElemType.ofName? name with
  | some t => exact .gives (same.cast_eq t ▸ .same _)
  | none =>
    cases binaryFunction? name with
    | some f => exact .fails _ _
    | none =>
      dsimp only
      cases known : unaryFunction? name with
      | none => exact .fails _ _
      | some f => exact .gives (unaryFunction_close known same)

theorem callFunction_close_pair (name : String) (same : SameNumber a a') (same' : SameNumber b b')
    (small : name ∈ orderedFunctions → Small a ∧ Small b) :
    (callFunction name [a, b]).Both SameNumber (callFunction name [a', b']) := by
  unfold callFunction
  cases ElemType.ofName? name with
  | some t => exact .fails _ _
  | none =>
    cases known : binaryFunction? name with
    | some f => exact .gives (binaryFunction_close known same same' small)
    | none => exact .fails _ _

namespace Expr

inductive Shallow : Expr → Prop
  | name (n : String) : Shallow (.name n)
  | call (function n : String) : Shallow (.call function [.name n])
  | pair (function n m : String) : Shallow (.call function [.name n, .name m])
  | unary (op : UnaryOp) (n : String) : Shallow (.unary op (.name n))
  | arith (op : ArithOp) (n m : String) : Shallow (.arith op (.name n) (.name m))
  | compare (op : CompareOp) (n m : String) : Shallow (.compare op (.name n) (.name m))
  | choose {cond yes no : Expr} : Shallow cond → Shallow yes → Shallow no →
    Shallow (.ifElse cond yes no)

def exponentName : String := "y"

def ordered : Expr → Bool
  | .call function _ => function ∈ orderedFunctions
  | .arith op _ (.name m) => op.ordered && m ≠ exponentName
  | .compare op _ _ => op.ordered
  | .ifElse cond yes no => cond.ordered || yes.ordered || no.ordered
  | _ => false

def wraps : Expr → Bool
  | .unary op _ => op.wraps
  | .arith op _ (.name m) => op.wraps && m ≠ exponentName
  | .ifElse _ yes no => yes.wraps || no.wraps
  | _ => false

end Expr

structure NearValue (matters : Bool) (n : String) (d d' : Datum) : Prop where
  same : SameNumber d d'
  small : matters = true → Small d
  exponent : n = Expr.exponentName → Signed d

def Scope.Near (matters : Bool) (names : List String) (scope scope' : Scope) : Prop :=
  ∀ n ∈ names, Option.Rel (NearValue matters n) (scope.value? n) (scope'.value? n)

theorem Scope.Near.mono {matters less : Bool} {names fewer : List String} {scope scope' : Scope}
    (near : Scope.Near matters names scope scope')
    (implies : less = true → matters = true) (sub : fewer ⊆ names) :
    Scope.Near less fewer scope scope' := by
  intro n member
  have related := near n (sub member)
  generalize scope.value? n = found, scope'.value? n = found' at related ⊢
  cases related with
  | none => exact .none
  | some related => exact .some { related with small := fun holds => related.small (implies holds) }

namespace Expr

variable {scope scope' : Scope}

theorem eval_name {matters : Bool} {names : List String}
    (near : Scope.Near matters names scope scope') {n : String} (member : n ∈ names) :
    ((Expr.name n).eval scope).Both (NearValue matters n) ((Expr.name n).eval scope') := by
  have related := near n member
  rw [eval, eval]
  generalize scope.value? n = found, scope'.value? n = found' at related ⊢
  cases related with
  | none => exact .fails _ _
  | some related => exact .gives related

theorem eval_close {e : Expr} (shallow : Shallow e)
    (near : Scope.Near e.ordered e.names scope scope') : (e.eval scope).Both (Close e.wraps)
      (e.eval scope') := by
  induction shallow with
  | name n => exact (eval_name near (by simp [names])).imp fun d d' near => near.same
  | call function n =>
    have operand := eval_name near (n := n) (by simp [names, namesAll])
    rw [eval, eval, evalAll, evalAll, evalAll, evalAll]
    simp only [bind_assoc]
    refine operand.bind ?_
    rintro a a' ⟨same, -, -⟩
    exact callFunction_close function same
  | pair function n m =>
    have first := eval_name near (n := n) (by simp [names, namesAll])
    have second := eval_name near (n := m) (by simp [names, namesAll])
    rw [eval, eval, evalAll, evalAll, evalAll, evalAll, evalAll, evalAll]
    simp only [bind_assoc]
    refine first.bind ?_
    rintro a a' ⟨same, small, -⟩
    refine second.bind ?_
    rintro b b' ⟨same', small', -⟩
    exact callFunction_close_pair function same same' fun member =>
      ⟨small (by simpa [ordered] using member), small' (by simpa [ordered] using member)⟩
  | unary op n =>
    have operand := eval_name near (n := n) (by simp [names])
    rw [eval, eval]
    refine operand.bind ?_
    rintro a a' ⟨same, -, -⟩
    exact op.apply_close same
  | arith op n m =>
    have first := eval_name near (n := n) (by simp [names])
    have second := eval_name near (n := m) (by simp [names])
    rw [eval, eval]
    refine first.bind ?_
    rintro a a' ⟨same, small, -⟩
    refine second.bind ?_
    rintro b b' ⟨same', small', signed⟩
    by_cases exponent : m = exponentName
    · rw [op.apply_signed same same' (signed exponent)]
      exact both_refl _ _
    · refine (op.apply_close same same' fun holds => ?_).imp fun d d' close => close.mono
        (by simp [wraps, exponent])
      have matters : (Expr.arith op (.name n) (.name m)).ordered = true := by
        simp [ordered, holds, exponent]
      exact ⟨small matters, small' matters⟩
  | compare op n m =>
    have first := eval_name near (n := n) (by simp [names])
    have second := eval_name near (n := m) (by simp [names])
    rw [eval, eval]
    refine first.bind ?_
    rintro a a' ⟨same, small, -⟩
    refine second.bind ?_
    rintro b b' ⟨same', small', -⟩
    rw [op.apply_eq same same' fun holds => ⟨small holds, small' holds⟩]
    exact .gives (SameNumber.same _)
  | @choose cond yes no _ _ _ condIH yesIH noIH =>
    have condition := condIH (near.mono (by simp +contextual [ordered])
      (by simp +contextual [names]))
    have first := yesIH (near.mono (by simp +contextual [ordered])
      (by simp +contextual [names, List.subset_def]))
    have second := noIH (near.mono (by simp +contextual [ordered])
      (by simp +contextual [names, List.subset_def]))
    rw [eval, eval]
    refine condition.bind fun d d' close => ?_
    rw [close.sameBits.toBool_eq]
    refine .ite (fun _ => first.imp fun _ _ close => ?_) fun _ => second.imp fun _ _ close => ?_
    · exact close.mono (by simp +contextual [wraps])
    · exact close.mono (by simp +contextual [wraps])

end Expr

end Kernel

end TraceFlow
