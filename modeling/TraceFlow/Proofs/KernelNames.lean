import TraceFlow.Kernel.Eval
import TraceFlow.Kernel.Parser
import TraceFlow.Proofs.Outcome

set_option autoImplicit false

namespace TraceFlow.Kernel

namespace Expr

mutual

def names : Expr → List String
  | .const _ => []
  | .name n => [n]
  | .subscript _ indices => namesAll indices
  | .call _ args => namesAll args
  | .unary _ operand => operand.names
  | .arith _ lhs rhs => lhs.names ++ rhs.names
  | .compare _ lhs rhs => lhs.names ++ rhs.names
  | .and lhs rhs => lhs.names ++ rhs.names
  | .or lhs rhs => lhs.names ++ rhs.names
  | .ifElse cond yes no => cond.names ++ yes.names ++ no.names

def namesAll : List Expr → List String
  | [] => []
  | e :: rest => e.names ++ namesAll rest

end

mutual

-- The arrays that are indexed, each with the number of its subscripts.
def subscripts : Expr → List (String × Nat)
  | .const _ => []
  | .name _ => []
  | .subscript array indices => (array, indices.length) :: subscriptsAll indices
  | .call _ args => subscriptsAll args
  | .unary _ operand => operand.subscripts
  | .arith _ lhs rhs => lhs.subscripts ++ rhs.subscripts
  | .compare _ lhs rhs => lhs.subscripts ++ rhs.subscripts
  | .and lhs rhs => lhs.subscripts ++ rhs.subscripts
  | .or lhs rhs => lhs.subscripts ++ rhs.subscripts
  | .ifElse cond yes no => cond.subscripts ++ yes.subscripts ++ no.subscripts

def subscriptsAll : List Expr → List (String × Nat)
  | [] => []
  | e :: rest => e.subscripts ++ subscriptsAll rest

end

theorem subscriptsAll_nil : subscriptsAll [] = [] := by rw [subscriptsAll]

end Expr

theorem parse_bind {α β : Type} {step : Except String α} {next : α → Except String β} {b : β} :
    (step >>= next) = .ok b ↔ ∃ a, step = .ok a ∧ next a = .ok b := by
  cases step with
  | error reason => simp [bind, Except.bind]
  | ok a => simp [bind, Except.bind]

theorem numberSpan_append (text : List Char) :
    (Token.numberSpan text).1 ++ (Token.numberSpan text).2 = text := by
  fun_induction Token.numberSpan text <;> simp_all

end TraceFlow.Kernel
