import TraceFlow.Datum

set_option autoImplicit false

namespace TraceFlow.Kernel

inductive Mark where
  | power | equal | notEqual | atMost | atLeast | less | greater | plus | minus | times | slash
  | percent | bar | ampersand | caret | tilde | openParen | closeParen | comma
  | openBracket | closeBracket | becomes
  deriving DecidableEq, Repr

namespace Mark

def all : List Mark :=
  [power, equal, notEqual, atMost, atLeast, less, greater, plus, minus, times, slash, percent, bar,
    ampersand,
    caret, tilde, openParen, closeParen, comma, openBracket, closeBracket, becomes]

def spelling : Mark → List Char
  | power => ['*', '*']
  | equal => ['=', '=']
  | notEqual => ['!', '=']
  | atMost => ['<', '=']
  | atLeast => ['>', '=']
  | less => ['<']
  | greater => ['>']
  | plus => ['+']
  | minus => ['-']
  | times => ['*']
  | slash => ['/']
  | percent => ['%']
  | bar => ['|']
  | ampersand => ['&']
  | caret => ['^']
  | tilde => ['~']
  | openParen => ['(']
  | closeParen => [')']
  | comma => [',']
  | openBracket => ['[']
  | closeBracket => [']']
  | becomes => ['=']

def text (m : Mark) : String :=
  String.ofList m.spelling

end Mark

inductive Token where
  | int (value : Int64)
  | float (value : Float)
  | name (text : String)
  | mark (mark : Mark)

namespace Token

def isBlank (c : Char) : Bool :=
  c = ' ' || c = '\t' || c = '\n' || c = '\r' || c.toNat = 0x0c

def startsName (c : Char) : Bool :=
  c.isAlpha || c = '_'

def continuesName (c : Char) : Bool :=
  c.isAlphanum || c = '_'

def numberSpan : List Char → List Char × List Char
  | [] => ([], [])
  | [c] => if c.isDigit || c = '.' || c = 'e' || c = 'E' then ([c], []) else ([], [c])
  | c :: next :: rest =>
    if c.isDigit || c = '.' then
      let (span, after) := numberSpan (next :: rest)
      (c :: span, after)
    else if c = 'e' || c = 'E' then
      if next = '+' || next = '-' then
        let (span, after) := numberSpan rest
        (c :: next :: span, after)
      else
        let (span, after) := numberSpan (next :: rest)
        (c :: span, after)
    else ([], c :: next :: rest)

def startsNumber : List Char → Bool
  | [] => false
  | [c] => c.isDigit
  | c :: next :: _ => c.isDigit || (c = '.' && next.isDigit)

def ofNumber (span : List Char) : Except String Token :=
  if span.all Char.isDigit then
    let n := Decimal.ofDigits span
    if n < 0x8000000000000000 then .ok (.int (Int64.ofNat n)) else .error "bad integer literal"
  else
    match Decimal.read? span with
    | some value => .ok (.float value)
    | none => .error "bad float literal"

def leadByte (c : Char) : Char :=
  let n := c.toNat
  if n < 0x80 then c
  else if n < 0x800 then Char.ofNat (0xc0 + n >>> 6)
  else if n < 0x10000 then Char.ofNat (0xe0 + n >>> 12)
  else Char.ofNat (0xf0 + n >>> 18)

def mark? (text : List Char) : Option (Mark × List Char) :=
  Mark.all.findSome? fun m =>
    if m.spelling.isPrefixOf text then some (m, text.drop m.spelling.length) else none

def scanFrom : Nat → List Char → Except String (List Token)
  | 0, _ => .ok []
  | _ + 1, [] => .ok []
  | steps + 1, c :: rest =>
    if isBlank c then scanFrom steps rest
    else if startsNumber (c :: rest) then do
      let (span, after) := numberSpan (c :: rest)
      let token ← ofNumber span
      return token :: (← scanFrom steps after)
    else if startsName c then do
      let after := rest.dropWhile continuesName
      return .name (String.ofList (c :: rest.takeWhile continuesName)) :: (← scanFrom steps after)
    else
      match mark? (c :: rest) with
      | some (m, after) => do return .mark m :: (← scanFrom steps after)
      | none => .error s!"unexpected character '{leadByte c}'"

def scan (text : String) : Except String (List Token) :=
  let chars := text.toList
  scanFrom chars.length chars

end Token

end TraceFlow.Kernel
