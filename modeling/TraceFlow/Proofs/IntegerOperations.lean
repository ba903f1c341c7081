import TraceFlow.Proofs.PrimitiveKernels
import TraceFlow.Proofs.WordArithmetic

set_option autoImplicit false

namespace TraceFlow

open Kernel List

namespace Kernel

open Datum (Matched Stands stands_self stands_int stands_uint bits_int bits_uint)

variable {a b : Datum} {op : ArithOp}

theorem ArithOp.apply_zero (divides : op = .div ∨ op = .rem) (matched : Matched a b)
    (zero : b.toInt = 0) : op.apply a b = halt .divisionByZero := by
  cases matched with
  | ints a b =>
    have zero : b = 0 := Int64.toInt_inj.mp zero
    rcases divides with rfl | rfl <;> exact if_pos zero
  | uints a b =>
    have zero : b = 0 := UInt64.toNat_inj.mp (Int.ofNat_inj.mp zero)
    rcases divides with rfl | rfl <;> exact if_pos zero

theorem ArithOp.apply_matched (plain : op ≠ .pow) (matched : Matched a b)
    (defined : op = .div ∨ op = .rem → b.toInt ≠ 0) :
    ∃ d, op.apply a b = .ok d ∧ d.Stands (op.exact a.toInt b.toInt) := by
  cases low : op.ordered with
  | false => exact apply_stands low (stands_self matched.left) (stands_self matched.right)
  | true =>
    cases matched with
    | ints a b =>
      have nonzero (divides : op = .div ∨ op = .rem) : b ≠ 0 :=
        fun zero => defined divides (congrArg Int64.toInt zero)
      cases op with
      | add | sub | mul | bitOr | bitAnd | bitXor => cases low
      | pow => exact absurd rfl plain
      | div =>
        refine ⟨_, if_neg (nonzero (.inl rfl)), stands_int (BitVec.eq_of_toInt_eq ?_)⟩
        rw [Int64.toInt_toBitVec, Int64.toInt_div, BitVec.toInt_ofInt]
        rfl
      | rem =>
        refine ⟨_, if_neg (nonzero (.inr rfl)), stands_int ?_⟩
        rw [bits_int, Int64.toInt_mod]
        rfl
    | uints a b =>
      have nonzero (divides : op = .div ∨ op = .rem) : b ≠ 0 :=
        fun zero => defined divides (congrArg (fun v : UInt64 => (v.toNat : Int)) zero)
      cases op with
      | add | sub | mul | bitOr | bitAnd | bitXor => cases low
      | pow => exact absurd rfl plain
      | div =>
        refine ⟨_, if_neg (nonzero (.inl rfl)), stands_uint ?_⟩
        rw [bits_uint, UInt64.toNat_div]
        rfl
      | rem =>
        refine ⟨_, if_neg (nonzero (.inr rfl)), stands_uint ?_⟩
        rw [bits_uint, UInt64.toNat_mod]
        rfl

def CompareOp.exact (x y : Int) : CompareOp → Bool
  | .eq => x = y
  | .ne => x ≠ y
  | .lt => x < y
  | .le => x ≤ y
  | .gt => x > y
  | .ge => x ≥ y

theorem CompareOp.holds_compare (op : CompareOp) (x y : Int) :
    op.holds (some (compare x y)) = op.exact x y := by
  rcases lt_trichotomy x y with less | rfl | more
  · have ordered : compare x y = .lt := compare_lt_iff_lt.mpr less
    cases op <;> simp [holds, exact, ordered, less, less.ne, less.le, less.not_gt]
  · cases op <;> simp [holds, exact]
  · have ordered : compare x y = .gt := compare_gt_iff_gt.mpr more
    cases op <;> simp [holds, exact, ordered, more, more.ne', more.le, more.not_gt]

theorem CompareOp.apply_matched (op : CompareOp) (matched : Matched a b) : op.apply a b = .bool
    (op.exact a.toInt b.toInt) := by
  have ordered : (promote a b).order? = some (compare a.toInt b.toInt) := by
    cases matched with
    | ints a b => rfl
    | uints a b =>
      change some (compare a.toNat b.toNat) = some (compare (a.toNat : Int) (b.toNat : Int))
      simp [compare, compareOfLessAndEq]
  rw [apply, ordered, holds_compare]

theorem smallest_matched (matched : Matched a b) : (smallest a b).Stands (min a.toInt b.toInt) := by
  cases matched with
  | ints a b =>
    refine stands_int ?_
    rw [bits_int, apply_ite Int64.toInt, min_def, Datum.toInt, Datum.toInt]
    simp only [Datum.toInt64, Int64.lt_iff_toInt_lt, ← not_le, ite_not]
  | uints a b =>
    refine stands_uint ?_
    rw [bits_uint, apply_ite UInt64.toNat, min_def, Datum.toInt, Datum.toInt]
    simp only [UInt64.lt_iff_toNat_lt, ← not_le, ite_not, Nat.cast_ite, Nat.cast_le]

theorem largest_matched (matched : Matched a b) : (largest a b).Stands (max a.toInt b.toInt) := by
  cases matched with
  | ints a b =>
    refine stands_int ?_
    rw [bits_int, apply_ite Int64.toInt, max_def_lt, Datum.toInt, Datum.toInt]
    simp only [Datum.toInt64, Int64.lt_iff_toInt_lt]
  | uints a b =>
    refine stands_uint ?_
    rw [bits_uint, apply_ite UInt64.toNat, max_def_lt, Datum.toInt, Datum.toInt]
    simp only [UInt64.lt_iff_toNat_lt, Nat.cast_ite, Nat.cast_lt]

end Kernel

namespace Datum

variable {d : Datum}

theorem magnitude_whole (whole : Whole d) : (magnitude d).Stands |d.toInt| := by
  cases d with
  | bool v => exact ⟨trivial, by cases v <;> rfl⟩
  | float v => exact whole.elim
  | int v =>
    refine stands_int ?_
    change (if v < 0 then -v else v).toBitVec = BitVec.ofInt 64 |v.toInt|
    by_cases negative : v < 0
    · have below : v.toInt < 0 := Int64.lt_iff_toInt_lt.mp negative
      rw [if_pos negative, abs_of_neg below, BitVec.ofInt_neg, ← bits_int, Int64.toBitVec_neg]
    · have above : 0 ≤ v.toInt := not_lt.mp fun below => negative (Int64.lt_iff_toInt_lt.mpr below)
      rw [if_neg negative, abs_of_nonneg above, ← bits_int]
  | uint v =>
    refine stands_uint ?_
    rw [bits_uint, Datum.toInt, Nat.abs_cast]

theorem signOf_whole (whole : Whole d) : (signOf d).Stands d.toInt.sign := by
  cases d with
  | bool v => exact ⟨trivial, by cases v <;> rfl⟩
  | float v => exact whole.elim
  | int v =>
    refine stands_int ?_
    change (if v < 0 then -1 else if v = 0 then 0 else 1 : Int64).toBitVec =
      BitVec.ofInt 64 v.toInt.sign
    by_cases negative : v < 0
    · have below : v.toInt < 0 := Int64.lt_iff_toInt_lt.mp negative
      rw [if_pos negative, Int.sign_eq_neg_one_of_neg below]
      rfl
    rw [if_neg negative]
    by_cases zero : v = 0
    · subst zero
      rfl
    · have above : 0 ≤ v.toInt := not_lt.mp fun below => negative (Int64.lt_iff_toInt_lt.mpr below)
      have positive : 0 < v.toInt :=
        lt_of_le_of_ne above fun same => zero (Int64.toInt_inj.mp same.symm)
      rw [if_neg zero, Int.sign_eq_one_of_pos positive]
      rfl
  | uint v =>
    refine stands_uint ?_
    change (if v = 0 then 0 else 1 : UInt64).toBitVec = BitVec.ofInt 64 (Int.sign v.toNat)
    by_cases zero : v = 0
    · subst zero
      rfl
    · have positive : 0 < v.toNat := Nat.pos_of_ne_zero fun same => zero (UInt64.toNat_inj.mp same)
      rw [if_neg zero, Int.sign_eq_one_of_pos (by exact_mod_cast positive)]
      rfl

end Datum

inductive IntegerOp where
  | pos | neg | abs | sign | add | addAny | sub | mul | div | rem | min | max
  | eq | ne | ge | gt | le | lt | clamp | and | or | xor | not
  deriving DecidableEq

namespace IntegerOp

def primitive : IntegerOp → String
  | pos => "pos"
  | neg => "neg"
  | abs => "abs"
  | sign => "sign"
  | add => "add"
  | addAny => "add_any"
  | sub => "sub"
  | mul => "mul"
  | div => "div"
  | rem => "rem"
  | min => "min"
  | max => "max"
  | eq => "eq"
  | ne => "ne"
  | ge => "ge"
  | gt => "gt"
  | le => "le"
  | lt => "lt"
  | clamp => "clamp"
  | and => "and"
  | or => "or"
  | xor => "xor"
  | not => "not"

def arity : IntegerOp → Nat
  | pos | neg | abs | sign | not => 1
  | clamp => 3
  | _ => 2

-- The type of the result for operands of type `t`: comparisons give truth values.
def result (t : ElemType) : IntegerOp → ElemType
  | eq | ne | ge | gt | le | lt => .bool
  | _ => t

-- The exact number that an operation gives, where it is defined.
def exact : IntegerOp → List Int → Int
  | pos, [x] => x
  | neg, [x] => -x
  | abs, [x] => |x|
  | sign, [x] => x.sign
  | add, [x, y] => x + y
  | addAny, [x, y] => x + y
  | sub, [x, y] => x - y
  | mul, [x, y] => x * y
  | div, [x, y] => x.tdiv y
  | rem, [x, y] => x.tmod y
  | min, [x, y] => Min.min x y
  | max, [x, y] => Max.max x y
  | eq, [x, y] => if x = y then 1 else 0
  | ne, [x, y] => if x ≠ y then 1 else 0
  | ge, [x, y] => if x ≥ y then 1 else 0
  | gt, [x, y] => if x > y then 1 else 0
  | le, [x, y] => if x ≤ y then 1 else 0
  | lt, [x, y] => if x < y then 1 else 0
  | clamp, [low, x, high] => if x < low then low else if x < high then x else high
  | and, [x, y] => x.land y
  | or, [x, y] => x.lor y
  | xor, [x, y] => x.xor y
  | not, [x] => x.lnot
  | _, _ => 0

def Undefined (op : IntegerOp) (xs : List Int) : Prop :=
  (op = div ∨ op = rem) ∧ xs[1]? = some 0

def formula (slot : Nat → String) : IntegerOp → Expr
  | pos => .unary .pos (.name (slot 0))
  | neg => .unary .neg (.name (slot 0))
  | abs => .call "abs" [.name (slot 0)]
  | sign => .call "sign" [.name (slot 0)]
  | add => .arith .add (.name (slot 0)) (.name (slot 1))
  | addAny => .arith .add (.name (slot 0)) (.name (slot 1))
  | sub => .arith .sub (.name (slot 0)) (.name (slot 1))
  | mul => .arith .mul (.name (slot 0)) (.name (slot 1))
  | div => .arith .div (.name (slot 0)) (.name (slot 1))
  | rem => .arith .rem (.name (slot 0)) (.name (slot 1))
  | min => .call "min" [.name (slot 0), .name (slot 1)]
  | max => .call "max" [.name (slot 0), .name (slot 1)]
  | eq => .compare .eq (.name (slot 0)) (.name (slot 1))
  | ne => .compare .ne (.name (slot 0)) (.name (slot 1))
  | ge => .compare .ge (.name (slot 0)) (.name (slot 1))
  | gt => .compare .gt (.name (slot 0)) (.name (slot 1))
  | le => .compare .le (.name (slot 0)) (.name (slot 1))
  | lt => .compare .lt (.name (slot 0)) (.name (slot 1))
  | clamp => .ifElse (.compare .lt (.name (slot 1)) (.name (slot 0))) (.name (slot 0))
      (.ifElse (.compare .lt (.name (slot 1)) (.name (slot 2))) (.name (slot 1)) (.name (slot 2)))
  | and => .arith .bitAnd (.name (slot 0)) (.name (slot 1))
  | or => .arith .bitOr (.name (slot 0)) (.name (slot 1))
  | xor => .arith .bitXor (.name (slot 0)) (.name (slot 1))
  | not => .unary .invert (.name (slot 0))

variable {slot : Nat → String} {op : IntegerOp}

def slotName (i : Nat) : String :=
  "in" ++ i.repr

def kernels : List (String × String) :=
  Arithmetic.kernels ++ Arithmetic.logicalKernels.map fun (primitive, bitwise, _) =>
    (primitive, bitwise)

def isKernel (op : IntegerOp) (kernel : String × String) : Bool :=
  kernel.1 == op.primitive && (Template.formula? kernel.2).any fun e => e.isSame
    (op.formula slotName)

theorem exists_kernel (op : IntegerOp) : ∃ kernel ∈ kernels, kernel.1 = op.primitive ∧ ∃ pieces,
    Template.Formula kernel.2 pieces (op.formula slotName) := by
  have listed : kernels.any op.isKernel = true := by
    cases op <;> decide +kernel
  obtain ⟨kernel, member, found⟩ := any_eq_true.mp listed
  obtain ⟨named, parsed⟩ := Bool.and_eq_true_iff.mp found
  exact ⟨kernel, member, eq_of_beq named, Template.exists_formula_of_isSame parsed⟩

theorem names_formula (op : IntegerOp) : ∀ n ∈ (op.formula slot).names, ∃ i < op.arity,
    n = slot i := by
  cases op <;> simp only [formula, Expr.names, Expr.namesAll, arity] <;> grind

def apply : IntegerOp → List Datum → Outcome Datum
  | pos, [a] => UnaryOp.pos.apply a
  | neg, [a] => UnaryOp.neg.apply a
  | abs, [a] => .ok (magnitude a)
  | sign, [a] => .ok (signOf a)
  | add, [a, b] => ArithOp.add.apply a b
  | addAny, [a, b] => ArithOp.add.apply a b
  | sub, [a, b] => ArithOp.sub.apply a b
  | mul, [a, b] => ArithOp.mul.apply a b
  | div, [a, b] => ArithOp.div.apply a b
  | rem, [a, b] => ArithOp.rem.apply a b
  | min, [a, b] => .ok (smallest a b)
  | max, [a, b] => .ok (largest a b)
  | eq, [a, b] => .ok (CompareOp.eq.apply a b)
  | ne, [a, b] => .ok (CompareOp.ne.apply a b)
  | ge, [a, b] => .ok (CompareOp.ge.apply a b)
  | gt, [a, b] => .ok (CompareOp.gt.apply a b)
  | le, [a, b] => .ok (CompareOp.le.apply a b)
  | lt, [a, b] => .ok (CompareOp.lt.apply a b)
  | clamp, [a, b, c] =>
    .ok (if (CompareOp.lt.apply b a).toBool then a else if (CompareOp.lt.apply b c).toBool then
      b else c)
  | and, [a, b] => ArithOp.bitAnd.apply a b
  | or, [a, b] => ArithOp.bitOr.apply a b
  | xor, [a, b] => ArithOp.bitXor.apply a b
  | not, [a] => UnaryOp.invert.apply a
  | _, _ => .ok default

theorem eval_formula {leaf : String → Expr} {scope : Scope} {ds : List Datum}
    (counted : ds.length = op.arity)
    (values : ∀ (i : Nat) d, ds[i]? = some d → (leaf (slot i)).eval scope = .ok d) :
    ((op.formula slot).fill leaf).eval scope = op.apply ds := by
  cases op
  case pos | neg | abs | sign | not =>
    obtain ⟨a, rfl⟩ := length_eq_one_iff.mp counted
    have first := values 0 a rfl
    simp only [formula, Expr.fill, Expr.fillAll, Expr.eval, Expr.evalAll, first, ok_bind,
      Outcome.pure_eq]
    rfl
  case clamp =>
    obtain ⟨a, b, c, rfl⟩ := length_eq_three.mp counted
    have first := values 0 a rfl
    have second := values 1 b rfl
    have third := values 2 c rfl
    simp only [formula, Expr.fill, Expr.eval, first, second, third, ok_bind, Outcome.pure_eq, apply]
    split
    · rfl
    · split <;> rfl
  all_goals
    obtain ⟨a, b, rfl⟩ := length_eq_two.mp counted
    have first := values 0 a rfl
    have second := values 1 b rfl
    simp only [formula, Expr.fill, Expr.fillAll, Expr.eval, Expr.evalAll, first, second, ok_bind,
      Outcome.pure_eq]
    rfl

def Alike (ds : List Datum) : Prop :=
  (∀ d ∈ ds, ∃ v, d = .int v) ∨ ∀ d ∈ ds, ∃ v, d = .uint v

namespace Alike

variable {ds : List Datum} (alike : Alike ds)

include alike

theorem whole {d : Datum} (member : d ∈ ds) : Whole d := by
  rcases alike with all | all
  all_goals
    obtain ⟨v, rfl⟩ := all d member
    exact trivial

theorem matched {a b : Datum} (first : a ∈ ds) (second : b ∈ ds) : a.Matched b := by
  rcases alike with all | all
  · obtain ⟨v, rfl⟩ := all a first
    obtain ⟨v', rfl⟩ := all b second
    exact .ints v v'
  · obtain ⟨v, rfl⟩ := all a first
    obtain ⟨v', rfl⟩ := all b second
    exact .uints v v'

theorem one (counted : ds.length = 1) : ∃ a, ds = [a] ∧ Whole a := by
  obtain ⟨a, rfl⟩ := length_eq_one_iff.mp counted
  exact ⟨a, rfl, alike.whole mem_cons_self⟩

theorem two (counted : ds.length = 2) : ∃ a b, ds = [a, b] ∧ a.Matched b := by
  obtain ⟨a, b, rfl⟩ := length_eq_two.mp counted
  exact ⟨a, b, rfl, alike.matched (by simp) (by simp)⟩

theorem apply_undefined (counted : ds.length = op.arity)
    (undefined : op.Undefined (ds.map Datum.toInt)) : op.apply ds = halt .divisionByZero := by
  obtain ⟨divides, zero⟩ := undefined
  have two : ds.length = 2 := by rcases divides with rfl | rfl <;> exact counted
  obtain ⟨a, b, rfl, matched⟩ := alike.two two
  have zero : b.toInt = 0 := Option.some_inj.mp zero
  rcases divides with rfl | rfl
  · exact ArithOp.apply_zero (.inl rfl) matched zero
  · exact ArithOp.apply_zero (.inr rfl) matched zero

theorem apply_defined (counted : ds.length = op.arity)
    (defined : ¬ op.Undefined (ds.map Datum.toInt)) {t : ElemType} (integer : t.isInteger = true) :
    ∃ d, op.apply ds = .ok d ∧ d.cast (op.result t) = (op.result t).ofInt
      (op.exact (ds.map Datum.toInt)) := by
  have stands {n : Int} (given : ∃ d, op.apply ds = .ok d ∧ d.Stands n) : ∃ d, op.apply ds = .ok d ∧
    d.cast t = t.ofInt n := by
    obtain ⟨d, applied, stands⟩ := given
    exact ⟨d, applied, stands.cast_eq integer⟩
  have truth (p : Prop) [Decidable p] :
    (Datum.bool (decide p)).cast .bool = ElemType.bool.ofInt (if p then 1 else 0) := by
    by_cases holds : p <;> simp [holds, Datum.cast, Datum.toBool, ElemType.ofInt, ElemType.isSigned,
      ElemType.isUnsigned]
  cases op
  case pos | neg | not =>
    obtain ⟨a, rfl, whole⟩ := alike.one counted
    exact stands (UnaryOp.apply_stands rfl (Datum.stands_self whole))
  case abs =>
    obtain ⟨a, rfl, whole⟩ := alike.one counted
    exact stands ⟨_, rfl, Datum.magnitude_whole whole⟩
  case sign =>
    obtain ⟨a, rfl, whole⟩ := alike.one counted
    exact stands ⟨_, rfl, Datum.signOf_whole whole⟩
  case add | addAny | sub | mul | and | or | xor =>
    obtain ⟨a, b, rfl, matched⟩ := alike.two counted
    exact stands (ArithOp.apply_matched (by decide) matched (by simp))
  case div | rem =>
    obtain ⟨a, b, rfl, matched⟩ := alike.two counted
    exact stands (ArithOp.apply_matched (by decide) matched fun _ zero => defined
      ⟨by decide, congrArg some zero⟩)
  case eq | ne | ge | gt | le | lt =>
    obtain ⟨a, b, rfl, matched⟩ := alike.two counted
    exact ⟨_, congrArg Except.ok (CompareOp.apply_matched _ matched), truth _⟩
  case min =>
    obtain ⟨a, b, rfl, matched⟩ := alike.two counted
    exact stands ⟨_, rfl, smallest_matched matched⟩
  case max =>
    obtain ⟨a, b, rfl, matched⟩ := alike.two counted
    exact stands ⟨_, rfl, largest_matched matched⟩
  case clamp =>
    obtain ⟨a, b, c, rfl⟩ := length_eq_three.mp counted
    have low := CompareOp.apply_matched .lt (alike.matched (a := b) (b := a) (by simp) (by simp))
    have high := CompareOp.apply_matched .lt (alike.matched (a := b) (b := c) (by simp) (by simp))
    refine stands ⟨_, rfl, ?_⟩
    simp only [map_cons, map_nil, exact, low, high, CompareOp.exact, Datum.toBool,
      decide_eq_true_eq]
    split
    · exact Datum.stands_self (alike.whole (by simp))
    split
    · exact Datum.stands_self (alike.whole (by simp))
    · exact Datum.stands_self (alike.whole (by simp))

end Alike

end IntegerOp

end TraceFlow
