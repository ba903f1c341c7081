import TraceFlow.Failure
import TraceFlow.Kernel.Expr

set_option autoImplicit false

namespace TraceFlow.Kernel

namespace Level

def disjunction : Nat := 0
def conjunction : Nat := 1
def negation : Nat := 2
def comparison : Nat := 3
def signs : Nat := 9

def operator? (level : Nat) (token : Token) : Option (Expr → Expr → Expr) :=
  match level, token with
  | 0, .name "or" => some .or
  | 1, .name "and" => some .and
  | 3, .mark .equal => some (.compare .eq)
  | 3, .mark .notEqual => some (.compare .ne)
  | 3, .mark .less => some (.compare .lt)
  | 3, .mark .atMost => some (.compare .le)
  | 3, .mark .greater => some (.compare .gt)
  | 3, .mark .atLeast => some (.compare .ge)
  | 4, .mark .bar => some (.arith .bitOr)
  | 5, .mark .caret => some (.arith .bitXor)
  | 6, .mark .ampersand => some (.arith .bitAnd)
  | 7, .mark .plus => some (.arith .add)
  | 7, .mark .minus => some (.arith .sub)
  | 8, .mark .times => some (.arith .mul)
  | 8, .mark .slash => some (.arith .div)
  | 8, .mark .percent => some (.arith .rem)
  | _, _ => none

end Level

def sign? : Token → Option UnaryOp
  | .mark .minus => some .neg
  | .mark .plus => some .pos
  | .mark .tilde => some .invert
  | _ => none

def expect (m : Mark) : List Token → Except String (List Token)
  | .mark found :: rest => if found = m then .ok rest else .error s!"expected '{m.text}'"
  | _ => .error s!"expected '{m.text}'"

mutual

def expression : Nat → List Token → Except String (Expr × List Token)
  | 0, _ => .error "expected an operand"
  | fuel + 1, tokens => do
    let (yes, tokens) ← binary fuel Level.disjunction tokens
    match tokens with
    | .name "if" :: tokens =>
      let (cond, tokens) ← binary fuel Level.disjunction tokens
      match tokens with
      | .name "else" :: tokens =>
        let (no, tokens) ← expression fuel tokens
        return (.ifElse cond yes no, tokens)
      | _ => .error "expected 'else'"
    | _ => return (yes, tokens)

-- An expression whose operators bind at least as strongly as `level`.
def binary : Nat → Nat → List Token → Except String (Expr × List Token)
  | 0, _, _ => .error "expected an operand"
  | fuel + 1, level, tokens =>
    if level = Level.negation then
      match tokens with
      | .name "not" :: tokens => do
        let (operand, tokens) ← binary fuel Level.negation tokens
        return (.unary .not operand, tokens)
      | _ => binary fuel Level.comparison tokens
    else if level < Level.signs then do
      let (lhs, tokens) ← binary fuel (level + 1) tokens
      chain fuel level lhs tokens
    else signed fuel tokens

def chain : Nat → Nat → Expr → List Token → Except String (Expr × List Token)
  | 0, _, _, _ => .error "expected an operand"
  | _ + 1, _, lhs, [] => .ok (lhs, [])
  | fuel + 1, level, lhs, token :: tokens =>
    match Level.operator? level token with
    | none => .ok (lhs, token :: tokens)
    | some join => do
      let (rhs, tokens) ← binary fuel (level + 1) tokens
      chain fuel level (join lhs rhs) tokens

def signed : Nat → List Token → Except String (Expr × List Token)
  | 0, _ => .error "expected an operand"
  | _ + 1, [] => .error "expected an operand"
  | fuel + 1, token :: tokens =>
    match sign? token with
    | some op => do
      let (operand, tokens) ← signed fuel tokens
      return (.unary op operand, tokens)
    | none => do
      let (base, tokens) ← operand fuel (token :: tokens)
      match tokens with
      | .mark .power :: tokens =>
        let (exponent, tokens) ← signed fuel tokens
        return (.arith .pow base exponent, tokens)
      | _ => return (base, tokens)

def operand : Nat → List Token → Except String (Expr × List Token)
  | _ + 1, .int v :: tokens => .ok (.const (.int v), tokens)
  | _ + 1, .float v :: tokens => .ok (.const (.float v), tokens)
  | fuel + 1, .mark .openParen :: tokens => do
    let (inner, tokens) ← expression fuel tokens
    return (inner, ← expect .closeParen tokens)
  | _ + 1, .name "True" :: tokens => .ok (.const (.bool true), tokens)
  | _ + 1, .name "False" :: tokens => .ok (.const (.bool false), tokens)
  | _ + 1, .name "nan" :: tokens => .ok (.const (.float Binary64.nan), tokens)
  | _ + 1, .name "inf" :: tokens => .ok (.const (.float Binary64.infinity), tokens)
  | _ + 1, .name f :: .mark .openParen :: .mark .closeParen :: tokens => .ok (.call f [], tokens)
  | fuel + 1, .name f :: .mark .openParen :: tokens => do
    let (args, tokens) ← arguments fuel .closeParen tokens
    return (.call f args, tokens)
  | _ + 1, .name a :: .mark .openBracket :: .mark .closeBracket :: tokens =>
    .ok (.subscript a [], tokens)
  | fuel + 1, .name a :: .mark .openBracket :: tokens => do
    let (indices, tokens) ← arguments fuel .closeBracket tokens
    return (.subscript a indices, tokens)
  | _ + 1, .name n :: tokens => .ok (.name n, tokens)
  | _, _ => .error "expected an operand"

def arguments : Nat → Mark → List Token → Except String (List Expr × List Token)
  | 0, _, _ => .error "expected an operand"
  | fuel + 1, close, tokens => do
    let (first, tokens) ← expression fuel tokens
    match tokens with
    | .mark .comma :: tokens =>
      let (rest, tokens) ← arguments fuel close tokens
      return (first :: rest, tokens)
    | _ => return ([first], ← expect close tokens)

end

-- Enough for every nesting that `count` tokens can form: each token is reached within twelve calls.
def parseFuel (count : Nat) : Nat :=
  16 * (count + 2)

namespace Assignment

def ofTokens (tokens : List Token) : Except String Assignment :=
  match tokens with
  | .name target :: rest => do
    let rest ← expect .becomes rest
    let (value, rest) ← expression (parseFuel rest.length) rest
    if rest.isEmpty then return { target, value } else .error "trailing tokens"
  | _ => .error "expected an assignment target"

def parse? (code : String) : Except String Assignment := do
  ofTokens (← Token.scan code)

def parse (code : String) : Outcome Assignment :=
  match parse? code with
  | .ok assignment => .ok assignment
  | .error reason => halt (.unparsable code reason)

end Assignment

end TraceFlow.Kernel
