import TraceFlow.Kernel.Token

set_option autoImplicit false

namespace TraceFlow.Kernel

inductive ArithOp where
  | add | sub | mul | div | rem | pow | bitOr | bitAnd | bitXor
  deriving DecidableEq, Repr

inductive CompareOp where
  | eq | ne | lt | le | gt | ge
  deriving DecidableEq, Repr

inductive UnaryOp where
  | neg | pos | invert | not
  deriving DecidableEq, Repr

inductive Expr where
  | const (value : Datum)
  | name (name : String)
  | subscript (array : String) (indices : List Expr)
  | call (function : String) (args : List Expr)
  | unary (op : UnaryOp) (operand : Expr)
  | arith (op : ArithOp) (lhs rhs : Expr)
  | compare (op : CompareOp) (lhs rhs : Expr)
  | and (lhs rhs : Expr)
  | or (lhs rhs : Expr)
  | ifElse (cond yes no : Expr)

instance : Inhabited Expr := ⟨.const default⟩

structure Assignment where
  target : String
  value : Expr

end TraceFlow.Kernel
