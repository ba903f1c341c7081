import TraceFlow.Machine.Program
import TraceFlow.Options

set_option autoImplicit false

namespace TraceFlow

structure Backend where
  name : String
  optimize : Options → Graph → Outcome Graph := fun _ g => .ok g
  compile : Graph → Outcome Program

def Backend.cpu : Backend :=
  { name := "cpu", compile := Program.compile }

end TraceFlow
