set_option autoImplicit false

namespace TraceFlow

structure Dyadic where
  mantissa : Nat
  exponent : Int
  deriving DecidableEq, Repr

namespace Dyadic

def quotient (x : Dyadic) : Nat × Nat :=
  if 0 ≤ x.exponent then (x.mantissa <<< x.exponent.toNat, 1)
  else (x.mantissa, 1 <<< (-x.exponent).toNat)

end Dyadic

namespace Binary64

-- What the lowest bit of the exponent field counts: the fraction has 52 bits.
def hiddenBit : Nat := 0x10000000000000

def signBit : Nat := 0x8000000000000000

def magnitude (bits : Nat) : Dyadic :=
  let field : Nat := bits / hiddenBit % 0x800
  let fraction : Nat := bits % hiddenBit
  if field = 0 then ⟨fraction, -1074⟩ else ⟨hiddenBit + fraction, (field : Int) - 1075⟩

def isNegative (bits : Nat) : Bool :=
  bits / signBit % 2 = 1

def infinityBits : Nat := 0x7ff * hiddenBit

def nan : Float := Float.ofBits 0x7ff8000000000000

def infinity : Float := Float.ofBits 0x7ff0000000000000

def pack (mantissa place : Nat) : Nat :=
  min (place * hiddenBit + mantissa) infinityBits

-- The nearest whole number to `num / den`; a half goes to the even one.
def roundHalfEven (num den : Nat) : Nat :=
  let whole := num / den
  let rest := num % den
  if 2 * rest < den then whole
  else if den < 2 * rest then whole + 1
  else whole + whole % 2

def scaled (num den : Nat) (exponent : Int) : Nat × Nat :=
  if 0 ≤ exponent then (num, den <<< exponent.toNat) else (num <<< (-exponent).toNat, den)

def nearest (num den : Nat) : Nat :=
  if num = 0 ∨ den = 0 then 0
  else
    let guess : Int := max ((num.log2 : Int) - den.log2 - 53) (-1074)
    let (n, d) := scaled num den guess
    let exponent := if 2 * hiddenBit ≤ n / d then guess + 1 else guess
    let (n, d) := scaled num den exponent
    pack (roundHalfEven n d) (exponent + 1074).toNat

def signed (negative : Bool) (bits : Nat) : Nat :=
  if negative then bits + signBit else bits

def ofQuotient (negative : Bool) (num den : Nat) : Float :=
  Float.ofBits (signed negative (nearest num den)).toUInt64

end Binary64

end TraceFlow
