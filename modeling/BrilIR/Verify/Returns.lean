import BrilIR.Diagnostic.Basic

/-! Ops that return from a function return values of the types that the function declares. -/

namespace BrilIR

namespace Signature

def typeFindings (s : Signature) (o : Operation) (n : Nat) : List Ty → List Ty → List Diagnostic
  | actual :: as, expected :: es =>
    let rest := typeFindings s o (n + 1) as es
    if actual = expected then rest
    else .ofOperation o .typeMismatch
      ("type of return operand " ++ toString n ++ " ('" ++ actual.text ++
        "') doesn't match function result type ('" ++ expected.text ++ "') in function @" ++
        s.identifier.getD "") :: rest
  | _, _ => []

/-- What is wrong with one op that returns from the function. A wrong number of values is all that
is said about them. -/
def returnFindings (s : Signature) (o : Operation) : List Diagnostic :=
  if o.operands.length = s.returns.length then s.typeFindings o 0 o.operandTypes s.returns
  else [.ofOperation o .counts
    ("has " ++ toString o.operands.length ++ " operands, but enclosing function (@" ++
      s.identifier.getD "" ++ ") returns " ++ toString s.returns.length)]

def returnsFindings (s : Signature) (returnName : String) (ops : List Op) : List Diagnostic :=
  (ops.filter (·.name == returnName)).flatMap fun op => s.returnFindings op.operation

end Signature

end BrilIR
