set_option autoImplicit false

namespace TraceFlow.Naming

-- Identifiers that generated code can not use, and the empty name.
def reserved : List String :=
  ["", "alignas", "alignof", "and", "asm", "auto", "bitand", "bitor", "bool", "break",
    "case", "catch", "char", "class", "compl", "concept", "const", "consteval", "constexpr",
    "constinit", "continue", "decltype", "default", "delete", "directive", "do", "double",
    "else", "enum", "explicit", "export", "extern", "false", "float", "for", "friend",
    "goto", "if", "inline", "int", "long", "mutable", "namespace", "new", "noexcept", "not",
    "nullptr", "operator", "or", "private", "protected", "public", "register", "requires",
    "return", "short", "signed", "sizeof", "static", "struct", "switch", "template", "this",
    "throw", "true", "try", "typedef", "typeid", "typename", "union", "unsigned", "using",
    "virtual", "void", "volatile", "while", "xor", "std"]

def isReserved (name : String) : Bool :=
  reserved.contains name

def reservedMark : String := "__jace_forbidden_"

def isNameChar (c : Char) : Bool :=
  c.isAlphanum || c = '_'

def isIdentifier (name : String) : Bool :=
  match name.toList with
  | [] => false
  | c :: rest => (c.isAlpha || c = '_') && rest.all isNameChar

def letter (n : Nat) : Char :=
  Char.ofNat ('a'.toNat + n % 26)

-- The digits of `n` in base 26, written in letters, before `tail`.
def lettersFrom : Nat → Nat → List Char → List Char
  | 0, _, tail => tail
  | fuel + 1, n, tail =>
    if n < 26 then letter n :: tail else lettersFrom fuel (n / 26) (letter n :: tail)

-- The sequence `a, b, …, z, ba, bb, …`.
def proposed (n : Nat) : String :=
  String.ofList (lettersFrom (n + 1) n [])

def fresh (n : Nat) : String :=
  let name := proposed n
  if isReserved name then reservedMark ++ name else name

def sanitized (text : String) : String :=
  let cleaned := text.toList.map fun c => if isNameChar c then c else '_'
  match cleaned with
  | [] => "_"
  | c :: _ => if c.isDigit then String.ofList ('_' :: cleaned) else String.ofList cleaned

end TraceFlow.Naming
