import TraceFlow.Lowering.Elementwise

set_option autoImplicit false

namespace TraceFlow.Arithmetic

def kernels : List (String × String) := [
  ("pos", "+(\x7bin0\x7d)"),
  ("neg", "-(\x7bin0\x7d)"),
  ("floor", "floor(\x7bin0\x7d)"),
  ("ceil", "ceil(\x7bin0\x7d)"),
  ("round", "round(\x7bin0\x7d)"),
  ("abs", "abs(\x7bin0\x7d)"),
  ("sign", "sign(\x7bin0\x7d)"),
  ("exp", "exp(\x7bin0\x7d)"),
  ("exp2", "exp2(\x7bin0\x7d)"),
  ("expm1", "expm1(\x7bin0\x7d)"),
  ("log", "log(\x7bin0\x7d)"),
  ("log1p", "log1p(\x7bin0\x7d)"),
  ("conj", "conj(\x7bin0\x7d)"),
  ("sqrt", "sqrt(\x7bin0\x7d)"),
  ("cbrt", "cbrt(\x7bin0\x7d)"),
  ("integer_pow", "(\x7bin0\x7d)**(\x7by\x7d)"),
  ("is_finite", "isfinite(\x7bin0\x7d)"),
  ("sin", "sin(\x7bin0\x7d)"),
  ("asin", "asin(\x7bin0\x7d)"),
  ("cos", "cos(\x7bin0\x7d)"),
  ("acos", "acos(\x7bin0\x7d)"),
  ("tan", "tan(\x7bin0\x7d)"),
  ("atan", "atan(\x7bin0\x7d)"),
  ("sinh", "sinh(\x7bin0\x7d)"),
  ("asinh", "asinh(\x7bin0\x7d)"),
  ("cosh", "cosh(\x7bin0\x7d)"),
  ("acosh", "acosh(\x7bin0\x7d)"),
  ("tanh", "tanh(\x7bin0\x7d)"),
  ("atanh", "atanh(\x7bin0\x7d)"),
  ("add", "(\x7bin0\x7d)+(\x7bin1\x7d)"),
  ("add_any", "(\x7bin0\x7d)+(\x7bin1\x7d)"),
  ("sub", "(\x7bin0\x7d)-(\x7bin1\x7d)"),
  ("mul", "(\x7bin0\x7d)*(\x7bin1\x7d)"),
  ("div", "(\x7bin0\x7d)/(\x7bin1\x7d)"),
  ("rem", "(\x7bin0\x7d)%(\x7bin1\x7d)"),
  ("pow", "(\x7bin0\x7d)**(\x7bin1\x7d)"),
  ("min", "min((\x7bin0\x7d), (\x7bin1\x7d))"),
  ("max", "max((\x7bin0\x7d), (\x7bin1\x7d))"),
  ("eq", "(\x7bin0\x7d) == (\x7bin1\x7d)"),
  ("ne", "(\x7bin0\x7d) != (\x7bin1\x7d)"),
  ("ge", "(\x7bin0\x7d) >= (\x7bin1\x7d)"),
  ("gt", "(\x7bin0\x7d) > (\x7bin1\x7d)"),
  ("le", "(\x7bin0\x7d) <= (\x7bin1\x7d)"),
  ("lt", "(\x7bin0\x7d) < (\x7bin1\x7d)"),
  ("atan2", "atan2((\x7bin0\x7d), (\x7bin1\x7d))"),
  ("nextafter", "nextafter((\x7bin0\x7d), (\x7bin1\x7d))"),
  ("clamp", "((\x7bin0\x7d) if (\x7bin1\x7d) < (\x7bin0\x7d) else " ++
    "((\x7bin1\x7d) if (\x7bin1\x7d) < (\x7bin2\x7d) else (\x7bin2\x7d)))")]

-- Kernels on bits, and on truth values, where inverting every bit is no negation.
def logicalKernels : List (String × String × String) := [
  ("or", "(\x7bin0\x7d) | (\x7bin1\x7d)", "(\x7bin0\x7d) or (\x7bin1\x7d)"),
  ("not", "~(\x7bin0\x7d)", "not (\x7bin0\x7d)"),
  ("and", "(\x7bin0\x7d) & (\x7bin1\x7d)", "(\x7bin0\x7d) and (\x7bin1\x7d)"),
  ("xor", "(\x7bin0\x7d) ^ (\x7bin1\x7d)", "(\x7bin0\x7d) != (\x7bin1\x7d)")]

def isInputSlot (slot : String) : Bool :=
  match slot.toList with
  | 'i' :: 'n' :: digits => !digits.isEmpty && digits.all Char.isDigit
  | _ => false

def paramText (params : Params) (name : String) : Outcome String := do
  match params.get? name with
  | some (.float v) => return Decimal.text v
  | _ => return Text.integer (← params.int name)

def bindParams (params : Params) : List String → Template → Outcome Template
  | [], template => .ok template
  | slot :: rest, template =>
    if isInputSlot slot then bindParams params rest template
    else do bindParams params rest (template.bind slot (← paramText params slot))

def operation (primitive text : String) : Elementwise :=
  { primitive
    kernel := fun _ _ e => do
      let template := Template.ofText text
      bindParams e.params (← template.slots) template }

-- Works on truth values if all inputs are such, else on bits.
def logical (primitive bitwise truth : String) : Elementwise :=
  { primitive
    kernel := fun _ _ e =>
      .ok (.ofText (if e.inputs.all fun atom => atom.elem = .bool then truth else bitwise)) }

def rules : List Rule :=
  kernels.map (fun (primitive, text) => (operation primitive text).rule) ++
    logicalKernels.map fun (primitive, bitwise, truth) => (logical primitive bitwise truth).rule

end TraceFlow.Arithmetic
