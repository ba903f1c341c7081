import TraceFlow.Elementary
import TraceFlow.Failure
import TraceFlow.Kernel.Expr

set_option autoImplicit false

namespace TraceFlow.Kernel

inductive Operands where
  | bools (a b : Bool)
  | ints (a b : Int64)
  | uints (a b : UInt64)
  | floats (a b : Float)

def promote : Datum → Datum → Operands
  | .float a, b => .floats a b.toFloat
  | a, .float b => .floats a.toFloat b
  | .bool a, .bool b => .bools a b
  | .uint a, .uint b => .uints a b
  | .uint a, .bool b => .uints a b.toUInt64
  | .bool a, .uint b => .uints a.toUInt64 b
  | a, b => .ints a.toInt64 b.toInt64

def Operands.order? : Operands → Option Ordering
  | .bools a b => some (compare a.toNat b.toNat)
  | .ints a b => some (compare a.toInt b.toInt)
  | .uints a b => some (compare a.toNat b.toNat)
  | .floats a b =>
    if a < b then some .lt else if b < a then some .gt else if a == b then some .eq else none

def CompareOp.holds (op : CompareOp) (order : Option Ordering) : Bool :=
  match op with
  | .eq => order == some .eq
  | .ne => order != some .eq
  | .lt => order == some .lt
  | .le => order == some .lt || order == some .eq
  | .gt => order == some .gt
  | .ge => order == some .gt || order == some .eq

-- `base ^ exponent` modulo the word, for an exponent below `2 ^ bits`.
def wrapPow : Nat → UInt64 → Nat → UInt64
  | 0, _, _ => 1
  | bits + 1, base, exponent =>
    let rest := wrapPow bits (base * base) (exponent / 2)
    if exponent % 2 = 1 then base * rest else rest

def powWord (base : UInt64) (exponent : Nat) : UInt64 :=
  wrapPow 32 base (min exponent 0xffffffff)

def ArithOp.onInts (op : ArithOp) (a b : Int64) : Outcome Datum :=
  match op with
  | .add => .ok (.int (a + b))
  | .sub => .ok (.int (a - b))
  | .mul => .ok (.int (a * b))
  | .div => if b = 0 then halt .divisionByZero else .ok (.int (a / b))
  | .rem => if b = 0 then halt .divisionByZero else .ok (.int (a % b))
  | .pow =>
    if 0 ≤ b then .ok (.int (powWord a.toUInt64 b.toInt.toNat).toInt64)
    else .ok (.float (a.toFloat.pow b.toFloat))
  | .bitOr => .ok (.int (a ||| b))
  | .bitAnd => .ok (.int (a &&& b))
  | .bitXor => .ok (.int (a ^^^ b))

def ArithOp.onWords (op : ArithOp) (a b : UInt64) : Outcome Datum :=
  match op with
  | .add => .ok (.uint (a + b))
  | .sub => .ok (.uint (a - b))
  | .mul => .ok (.uint (a * b))
  | .div => if b = 0 then halt .divisionByZero else .ok (.uint (a / b))
  | .rem => if b = 0 then halt .divisionByZero else .ok (.uint (a % b))
  | .pow => .ok (.uint (powWord a b.toNat))
  | .bitOr => .ok (.uint (a ||| b))
  | .bitAnd => .ok (.uint (a &&& b))
  | .bitXor => .ok (.uint (a ^^^ b))

def ArithOp.onFloats (op : ArithOp) (a b : Float) : Outcome Datum :=
  match op with
  | .add => .ok (.float (a + b))
  | .sub => .ok (.float (a - b))
  | .mul => .ok (.float (a * b))
  | .div => .ok (.float (a / b))
  | .rem => .ok (.float (Elementary.remainder a b))
  | .pow => .ok (.float (a.pow b))
  | .bitOr => halt (.bitwiseOnFloats "BitOr")
  | .bitAnd => halt (.bitwiseOnFloats "BitAnd")
  | .bitXor => halt (.bitwiseOnFloats "BitXor")

def ArithOp.onBools (op : ArithOp) (a b : Bool) : Outcome Datum :=
  match op with
  | .bitOr => .ok (.bool (a || b))
  | .bitAnd => .ok (.bool (a && b))
  | .bitXor => .ok (.bool (a ^^ b))
  | _ => op.onInts (Datum.bool a).toInt64 (Datum.bool b).toInt64

def ArithOp.apply (op : ArithOp) (a b : Datum) : Outcome Datum :=
  match promote a b with
  | .bools a b => op.onBools a b
  | .ints a b => op.onInts a b
  | .uints a b => op.onWords a b
  | .floats a b => op.onFloats a b

def CompareOp.apply (op : CompareOp) (a b : Datum) : Datum :=
  .bool (op.holds (promote a b).order?)

def UnaryOp.apply (op : UnaryOp) (d : Datum) : Outcome Datum :=
  match op, d with
  | .not, d => .ok (.bool !d.toBool)
  | .pos, .bool v => .ok (.int (Datum.bool v).toInt64)
  | .pos, d => .ok d
  | .neg, .float v => .ok (.float (-v))
  | .neg, .uint v => .ok (.uint (-v))
  | .neg, d => .ok (.int (-d.toInt64))
  | .invert, .uint v => .ok (.uint (~~~v))
  | .invert, .float _ => halt .invertedFloat
  | .invert, d => .ok (.int (~~~d.toInt64))

def largest (a b : Datum) : Datum :=
  match promote a b with
  | .floats a b => .float (if a.isNaN || b.isNaN then Binary64.nan else Elementary.larger a b)
  | .ints a b => .int (if a < b then b else a)
  | .uints a b => .uint (if a < b then b else a)
  | .bools a b => .bool (a || b)

def smallest (a b : Datum) : Datum :=
  match promote a b with
  | .floats a b => .float (if a.isNaN || b.isNaN then Binary64.nan else Elementary.smaller a b)
  | .ints a b => .int (if b < a then b else a)
  | .uints a b => .uint (if b < a then b else a)
  | .bools a b => .bool (a && b)

def onFloat (f : Float → Float) : Datum → Datum
  | .float v => .float (f v)
  | d => d

def magnitude : Datum → Datum
  | .float v => .float v.abs
  | .int v => .int (if v < 0 then -v else v)
  | d => d

def signOf : Datum → Datum
  | .float v => .float (if v.isNaN || v == 0 then v else if v < 0 then -1 else 1)
  | .int v => .int (if v < 0 then -1 else if v = 0 then 0 else 1)
  | .uint v => .uint (if v = 0 then 0 else 1)
  | .bool v => .bool v

def floatFunctions : List (String × (Float → Float)) :=
  [("exp", Float.exp), ("exp2", Float.exp2), ("expm1", Elementary.expMinusOne), ("log", Float.log),
    ("log1p", Elementary.logOnePlus), ("sqrt", Float.sqrt), ("cbrt", Float.cbrt),
    ("sin", Float.sin),
    ("asin", Float.asin), ("cos", Float.cos), ("acos", Float.acos), ("tan", Float.tan),
    ("atan", Float.atan),
    ("sinh", Float.sinh), ("asinh", Elementary.arsinh), ("cosh", Float.cosh),
    ("acosh", Elementary.arcosh),
    ("tanh", Float.tanh), ("atanh", Elementary.artanh)]

def unaryFunction? (name : String) : Option (Datum → Datum) :=
  match name with
  | "floor" => some (onFloat Float.floor)
  | "ceil" => some (onFloat Float.ceil)
  | "round" => some (onFloat Float.round)
  | "abs" => some magnitude
  | "sign" => some signOf
  | "conj" => some id
  | "isfinite" => some fun d => .bool d.toFloat.isFinite
  | name =>
    (floatFunctions.find? fun entry => entry.1 = name).map fun (_, f) d => .float (f d.toFloat)

def binaryFunction? (name : String) : Option (Datum → Datum → Datum) :=
  match name with
  | "min" => some smallest
  | "max" => some largest
  | "atan2" => some fun a b => .float (Float.atan2 a.toFloat b.toFloat)
  | "nextafter" => some fun a b => .float (Elementary.nextAfter a.toFloat b.toFloat)
  | _ => none

def callFunction (name : String) (args : List Datum) : Outcome Datum :=
  match ElemType.ofName? name, binaryFunction? name, args with
  | some t, _, [d] => .ok (d.cast t)
  | some _, _, _ => halt (.wrongArity name 1 args.length)
  | none, some f, [a, b] => .ok (f a b)
  | none, some _, _ => halt (.wrongArity name 2 args.length)
  | none, none, [d] =>
    match unaryFunction? name with
    | some f => .ok (f d)
    | none => halt (.unknownFunction name)
  | none, none, _ => halt (.wrongArity name 1 args.length)

structure Scope where
  value? : String → Option Datum
  element : String → List Int → Outcome Datum

namespace Expr

mutual

def eval (scope : Scope) : Expr → Outcome Datum
  | .const value => .ok value
  | .name n =>
    match scope.value? n with
    | some value => .ok value
    | none => halt (.unboundName n)
  | .subscript array indices => do
    scope.element array ((← evalAll scope indices).map fun d => d.toInt64.toInt)
  | .call function args => do callFunction function (← evalAll scope args)
  | .unary op operand => do op.apply (← operand.eval scope)
  | .arith op lhs rhs => do
    let a ← lhs.eval scope
    let b ← rhs.eval scope
    op.apply a b
  | .compare op lhs rhs => do
    let a ← lhs.eval scope
    let b ← rhs.eval scope
    return op.apply a b
  | .and lhs rhs => do
    if (← lhs.eval scope).toBool then return .bool (← rhs.eval scope).toBool else return .bool false
  | .or lhs rhs => do
    if (← lhs.eval scope).toBool then return .bool true else return .bool (← rhs.eval scope).toBool
  | .ifElse cond yes no => do
    if (← cond.eval scope).toBool then yes.eval scope else no.eval scope

def evalAll (scope : Scope) : List Expr → Outcome (List Datum)
  | [] => .ok []
  | e :: rest => do
    let value ← e.eval scope
    return value :: (← evalAll scope rest)

end

end Expr

end TraceFlow.Kernel
