import TraceFlow.Binary64
import TraceFlow.Text

set_option autoImplicit false

namespace TraceFlow.Decimal

structure Numeral where
  digits : Nat
  exponent : Int
  deriving DecidableEq, Repr

-- The interval of numbers that round to a double, in quarters of its last place.
structure Interval where
  low : Nat
  value : Nat
  high : Nat
  exponent : Int
  closed : Bool

def Interval.around (x : Dyadic) : Interval :=
  let m := x.mantissa
  let low := if m = Binary64.hiddenBit ∧ -1074 < x.exponent then 4 * m - 1 else 4 * m - 2
  ⟨low, 4 * m, 4 * m + 2, x.exponent - 2, m % 2 = 0⟩

def commonScale (n : Nat) (place : Int) (m : Nat) (exponent : Int) : Nat × Nat :=
  ((n * Nat.pow 10 place.toNat) <<< (-exponent).toNat, (m * Nat.pow 10 (-place).toNat) <<<
    exponent.toNat)

def Interval.contains (i : Interval) (n : Nat) (place : Int) : Bool :=
  let (a, low) := commonScale n place i.low i.exponent
  let (b, high) := commonScale n place i.high i.exponent
  if i.closed then low ≤ a && b ≤ high else low < a && b < high

def Interval.floorAt (i : Interval) (place : Int) : Nat :=
  let (unit, value) := commonScale 1 place i.value i.exponent
  value / unit

def Interval.upperIsNearer (i : Interval) (below : Nat) (place : Int) : Bool :=
  let (twice, value) := commonScale (2 * below + 1) place (2 * i.value) i.exponent
  twice ≤ value

def Interval.hit? (i : Interval) (place : Int) : Option Numeral :=
  let below := i.floorAt place
  match i.contains below place && below != 0, i.contains (below + 1) place with
  | true, true => some ⟨if i.upperIsNearer below place then below + 1 else below, place⟩
  | true, false => some ⟨below, place⟩
  | false, true => some ⟨below + 1, place⟩
  | false, false => none

def leadingPlace (x : Dyadic) : Int :=
  let (num, den) := x.quotient
  if den ≤ num then ((Nat.toDigits 10 (num / den)).length : Int) - 1
  else -((Nat.toDigits 10 ((den - 1) / num)).length : Int)

def stripZeros : Nat → Numeral → Numeral
  | 0, n => n
  | fuel + 1, n =>
    if n.digits % 10 = 0 ∧ n.digits ≠ 0 then stripZeros fuel ⟨n.digits / 10, n.exponent + 1⟩ else n

def shortest (x : Dyadic) : Numeral :=
  let interval := Interval.around x
  let lead := leadingPlace x
  match (List.range 18).findSome? fun (count : Nat) => interval.hit? (lead - count) with
  | some numeral => stripZeros 20 numeral
  | none => ⟨interval.floorAt (lead - 17), lead - 17⟩

structure Layout where
  lowest : Int
  highest : Int

-- Numbers from `1e-4` up to `1e16` are written out; the others carry an exponent.
def plainLayout : Layout := ⟨-4, 15⟩

def zeros (n : Nat) : String :=
  String.ofList (List.replicate n '0')

def positional (digits : List Char) (exponent : Int) : String :=
  if 0 ≤ exponent then String.ofList digits ++ zeros exponent.toNat ++ ".0"
  else
    let places := (-exponent).toNat
    if places < digits.length then
      String.ofList (digits.take (digits.length - places)) ++ "." ++
        String.ofList (digits.drop (digits.length - places))
    else "0." ++ zeros (places - digits.length) ++ String.ofList digits

def scientific (digits : List Char) (lead : Int) : String :=
  let point := if digits.length ≤ 1 then "" else "."
  String.ofList (digits.take 1) ++ point ++ String.ofList (digits.drop 1) ++ "e" ++
    Text.integer lead

def Numeral.text (layout : Layout) (n : Numeral) : String :=
  let digits := Nat.toDigits 10 n.digits
  let lead := n.exponent + digits.length - 1
  if layout.lowest ≤ lead ∧ lead ≤ layout.highest then positional digits n.exponent
  else scientific digits lead

def finiteText (bits : Nat) : String :=
  let sign := if Binary64.isNegative bits then "-" else ""
  let x := Binary64.magnitude bits
  if x.mantissa = 0 then sign ++ "0.0" else sign ++ (shortest x).text plainLayout

def text (x : Float) : String :=
  if x.isNaN then "NaN"
  else if x.isInf then (if x > 0 then "inf" else "-inf")
  else finiteText x.toBits.toNat

def digitValue (c : Char) : Nat :=
  c.toNat - '0'.toNat

def ofDigits (digits : List Char) : Nat :=
  digits.foldl (fun total c => 10 * total + digitValue c) 0

def Numeral.toFloat (n : Numeral) : Float :=
  let lead := n.exponent + (Nat.toDigits 10 n.digits).length
  if n.digits = 0 ∨ lead < -330 then 0
  else if 320 < lead then Binary64.ofQuotient false (1 <<< 1024) 1
  else if 0 ≤ n.exponent then Binary64.ofQuotient false (n.digits * Nat.pow 10 n.exponent.toNat) 1
  else Binary64.ofQuotient false n.digits (Nat.pow 10 (-n.exponent).toNat)

-- The exponent part of a numeral: empty, or `e` with an optional sign and at least one digit.
def readExponent? : List Char → Option Int
  | [] => some 0
  | mark :: rest =>
    if mark = 'e' ∨ mark = 'E' then
      let (negative, digits) := match rest with
        | '-' :: digits => (true, digits)
        | '+' :: digits => (false, digits)
        | digits => (false, digits)
      if digits.isEmpty ∨ ¬ digits.all Char.isDigit then none
      else some (if negative then -(ofDigits digits : Int) else ofDigits digits)
    else none

def readNumeral? (text : List Char) : Option Numeral :=
  let whole := text.takeWhile Char.isDigit
  let (fraction, rest) := match text.dropWhile Char.isDigit with
    | '.' :: rest => (rest.takeWhile Char.isDigit, rest.dropWhile Char.isDigit)
    | rest => ([], rest)
  if (whole ++ fraction).isEmpty then none
  else (readExponent? rest).map fun exponent =>
    ⟨ofDigits (whole ++ fraction), exponent - fraction.length⟩

def read? (text : List Char) : Option Float :=
  (readNumeral? text).map Numeral.toFloat

end TraceFlow.Decimal
