import TraceFlow.Text.Hidden

set_option autoImplicit false

namespace TraceFlow.Text

def bracketed (parts : List String) : String :=
  "[" ++ ", ".intercalate parts ++ "]"

def naturals (ns : List Nat) : String :=
  bracketed (ns.map Nat.repr)

def integer : Int → String
  | .ofNat n => n.repr
  | .negSucc n => "-" ++ (n + 1).repr

def integers (is : List Int) : String :=
  bracketed (is.map integer)

def hexDigits (n : Nat) : String :=
  String.ofList (Nat.toDigits 16 n)

def paddedHex (width n : Nat) : String :=
  let digits := Nat.toDigits 16 n
  String.ofList (List.replicate (width - digits.length) '0' ++ digits)

def isPlain (c : Char) : Bool :=
  !Hidden.runs.covers c.toNat

def quotedChar (c : Char) : String :=
  if c = '"' then "\\\""
  else if c = '\\' then "\\\\"
  else if c = '\n' then "\\n"
  else if c = '\r' then "\\r"
  else if c = '\t' then "\\t"
  else if c.toNat = 0 then "\\0"
  else if isPlain c then c.toString
  else "\\u\x7b" ++ hexDigits c.toNat ++ "\x7d"

-- A string between double quotes, with escapes for what can not be shown as it is.
def quoted (s : String) : String :=
  "\"" ++ String.join (s.toList.map quotedChar) ++ "\""

def quotedList (parts : List String) : String :=
  bracketed (parts.map quoted)

def quotedSet (parts : List String) : String :=
  "\x7b" ++ ", ".intercalate (parts.map quoted) ++ "\x7d"

def optional (text? : Option String) : String :=
  match text? with
  | none => "None"
  | some text => "Some(" ++ text ++ ")"

def truth (b : Bool) : String :=
  if b then "true" else "false"

def jsonChar (c : Char) : String :=
  if c = '"' then "\\\""
  else if c = '\\' then "\\\\"
  else if c = '\n' then "\\n"
  else if c = '\r' then "\\r"
  else if c = '\t' then "\\t"
  else if c.toNat = 0x08 then "\\b"
  else if c.toNat = 0x0c then "\\f"
  else if c.toNat < 0x20 then "\\u" ++ paddedHex 4 c.toNat
  else c.toString

def jsonString (s : String) : String :=
  "\"" ++ String.join (s.toList.map jsonChar) ++ "\""

def markupChar (c : Char) : String :=
  if c = '&' then "&amp;"
  else if c = '<' then "&lt;"
  else if c = '>' then "&gt;"
  else if c = '"' then "&quot;"
  else c.toString

def markup (s : String) : String :=
  String.join (s.toList.map markupChar)

end TraceFlow.Text
