import TraceFlow.Binary64

set_option autoImplicit false

namespace TraceFlow.Elementary

open Binary64 (nan infinity)

def isNegative (x : Float) : Bool :=
  Binary64.isNegative x.toBits.toNat

def withSignOf (x sign : Float) : Float :=
  let magnitude := x.abs
  if isNegative sign then -magnitude else magnitude

-- Remainder of the division that truncates toward zero; it is exact and has the sign of `x`.
def remainder (x y : Float) : Float :=
  if x.isNaN || y.isNaN || x.isInf || y == 0 then nan
  else if y.isInf then x
  else
    let a := Binary64.magnitude x.toBits.toNat
    let b := Binary64.magnitude y.toBits.toNat
    let low := min a.exponent b.exponent
    let num := a.mantissa <<< (a.exponent - low).toNat
    let den := b.mantissa <<< (b.exponent - low).toNat
    let (n, d) := Dyadic.quotient ⟨num % den, low⟩
    Binary64.ofQuotient (isNegative x) n d

def nextAfter (x y : Float) : Float :=
  if x.isNaN || y.isNaN then nan
  else if x == y then y
  else if x == 0 then
    let smallest := Float.ofBits 1
    if y > 0 then smallest else -smallest
  else
    let away := (y > x : Bool) == (x > 0 : Bool)
    Float.ofBits (if away then x.toBits + 1 else x.toBits - 1)

def fixedBits : Nat := 220

def one : Nat := 1 <<< fixedBits

def toFixed (x : Float) : Int :=
  let m := Binary64.magnitude x.toBits.toNat
  let shift := m.exponent + fixedBits
  let n : Nat := if 0 ≤ shift then m.mantissa <<< shift.toNat else m.mantissa >>> (-shift).toNat
  if isNegative x then -(n : Int) else n

def ofFixed (n : Int) : Float :=
  Binary64.ofQuotient (n < 0) n.natAbs one

def exponentialSeries (z : Int) : Nat → Nat → Int → Int
  | 0, _, _ => 0
  | count + 1, k, term => term + exponentialSeries z count (k + 1) (term * z / one / k)

def oddSeries (z : Int) : Nat → Nat → Int → Int
  | 0, _, _ => 0
  | count + 1, k, term => term / k + oddSeries z count (k + 2) (term * z / one)

def logFixed (y : Int) : Int :=
  let z := (y - one) * one / (y + one)
  2 * oddSeries (z * z / one) 80 1 z

def logTwo : Int := logFixed (2 * one)

def expMinusOne (x : Float) : Float :=
  if x.isNaN then nan
  else if x > 710 then infinity
  else if x < -60 then -1
  else if x.abs < 5.0e-17 then x
  else
    let fixed := toFixed x
    let k := fixed / logTwo
    let power := exponentialSeries (fixed - k * logTwo) 64 1 one
    let scaled := if 0 ≤ k then power * (1 <<< k.toNat : Nat) else power / (1 <<< (-k).toNat : Nat)
    ofFixed (scaled - one)

def logOnePlus (x : Float) : Float :=
  if x.isNaN || x < -1 then nan
  else if x == -1 then -infinity
  else if x.isInf || x.abs < 5.0e-17 then x
  else
    let y := toFixed x + one
    let k : Int := (y.natAbs.log2 : Int) - fixedBits
    let reduced := if 0 ≤ k then y / (1 <<< k.toNat : Nat) else y * (1 <<< (-k).toNat : Nat)
    ofFixed (logFixed reduced + k * logTwo)

def hypotenuse (x : Float) : Float :=
  if x > 1.0e10 then x else (1 + x * x).sqrt

def largeArgument : Float := 268435456

def logTwice (x : Float) : Float :=
  x.log + Float.log 2

def arsinh (x : Float) : Float :=
  let a := x.abs
  let inverse := 1 / a
  withSignOf (if a > largeArgument then logTwice a else
    logOnePlus (a + a / (hypotenuse inverse + inverse))) x

-- Computed from the distance to one, which keeps its digits where the result is small.
def arcosh (x : Float) : Float :=
  let t := x - 1
  if x < 1 then nan
  else if x > largeArgument then logTwice x
  else logOnePlus (t + (2 * t + t * t).sqrt)

-- Half the logarithm of `(1 + x) / (1 - x)`.
def artanh (x : Float) : Float :=
  0.5 * logOnePlus (2 * x / (1 - x))

def larger (x y : Float) : Float :=
  if y < x then x else y

def smaller (x y : Float) : Float :=
  if x < y then x else y

end TraceFlow.Elementary
