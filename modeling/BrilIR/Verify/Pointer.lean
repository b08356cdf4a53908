import BrilIR.Verify.Structure

/-! Loads and stores move a value of exactly the type that their pointer points to. -/

namespace BrilIR

namespace Operation

def pointeeFindings (o : Operation) (pointer moved : Ty) (mismatch : String) : List Diagnostic :=
  match pointer.pointee? with
  | none => [.ofOperation o .typeMismatch "expected 'ptr' type for 'ptr' operand"]
  | some t => if t = moved then [] else [.ofOperation o .typeMismatch mismatch]

def loadFindings (o : Operation) : List Diagnostic :=
  match OpKind.structureFindings (.instr .load) o, o.operandTypes, o.resultTypes with
  | [], pointer :: _, moved :: _ =>
    o.pointeeFindings pointer moved "result type must match pointee type of pointer"
  | found, _, _ => found

def storeFindings (o : Operation) : List Diagnostic :=
  match OpKind.structureFindings (.instr .store) o, o.operandTypes with
  | [], pointer :: moved :: _ =>
    o.pointeeFindings pointer moved "value type must match pointee type of pointer"
  | found, _ => found

end Operation

end BrilIR
