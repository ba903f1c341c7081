import TraceFlow.Dict
import TraceFlow.Failure

set_option autoImplicit false

namespace TraceFlow

namespace Template

inductive Piece where
  | text (chars : List Char)
  | slot (name : List Char)
  deriving DecidableEq, Repr

def openBrace : Char := '\x7b'

def closeBrace : Char := '\x7d'

def isSlotChar (c : Char) : Bool :=
  c.isAlphanum || c = '_'

def Piece.textBefore (chars : List Char) (pieces : List Piece) : List Piece :=
  if chars.isEmpty then pieces else .text chars :: pieces

mutual

-- Pieces of a template, after the characters `before` of a text.
def textPieces (before : List Char) : List Char → Except String (List Piece)
  | [] => .ok (Piece.textBefore before [])
  | [c] =>
    if c = openBrace then .error "unterminated placeholder"
    else if c = closeBrace then .error "unmatched '\x7d'"
    else .ok [.text (before ++ [c])]
  | c :: next :: rest =>
    if c = openBrace ∧ next = openBrace then textPieces (before ++ [openBrace]) rest
    else if c = closeBrace ∧ next = closeBrace then textPieces (before ++ [closeBrace]) rest
    else if c = openBrace then do
      return Piece.textBefore before (← slotPieces [] (next :: rest))
    else if c = closeBrace then .error "unmatched '\x7d'"
    else textPieces (before ++ [c]) (next :: rest)

-- Pieces of a template inside a slot, after the characters `name`.
def slotPieces (name : List Char) : List Char → Except String (List Piece)
  | [] => .error "unterminated placeholder"
  | c :: rest =>
    if c = closeBrace then
      if name.isEmpty then .error "empty placeholder"
      else do return .slot name :: (← textPieces [] rest)
    else if isSlotChar c then slotPieces (name ++ [c]) rest
    else .error s!"'{c}' inside a placeholder"

end

def escape (chars : List Char) : List Char :=
  chars.flatMap fun c => if c = openBrace ∨ c = closeBrace then [c, c] else [c]

def write (pieces : List Piece) : List Char :=
  pieces.flatMap fun
    | .text chars => escape chars
    | .slot name => openBrace :: name ++ [closeBrace]

def slotName? : Piece → Option String
  | .slot name => some (String.ofList name)
  | .text _ => none

end Template

structure Template where
  text : String
  bindings : Dict String

namespace Template

def ofText (text : String) : Template :=
  ⟨text, {}⟩

def bind (t : Template) (slot value : String) : Template :=
  { t with bindings := t.bindings.insert slot value }

def pieces (t : Template) : Outcome (List Piece) :=
  match textPieces [] t.text.toList with
  | .ok pieces => .ok pieces
  | .error reason => refuse (.invariant s!"malformed tasklet template `{t.text}`: {reason}")

def slots (t : Template) : Outcome (List String) := do
  return (← t.pieces).filterMap slotName?

def fillPiece (t : Template) : Piece → Outcome String
  | .text chars => .ok (String.ofList chars)
  | .slot name =>
    let slot := String.ofList name
    match t.bindings.get? slot with
    | some value => .ok value
    | none =>
      refuse (.invariant
        s!"tasklet template `{t.text}` has no binding for '\x7b{slot}\x7d'")

def render (t : Template) : Outcome String := do
  return String.join (← (← t.pieces).mapM t.fillPiece)

end Template

end TraceFlow
