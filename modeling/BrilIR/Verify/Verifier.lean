import BrilIR.Diagnostic.Collector
import BrilIR.Verify.Structure

/-!
Checks at work. A check reports its findings to a collector one by one and then passes or fails,
which are two different things to be told: a full collector no longer keeps what it is given, and a
check that goes on behind a fault must remember that there was one.
-/

namespace BrilIR

/-- What is left of a check that does not pass. Why it does not is left to the diagnostics. -/
inductive Failure where
  | failure
deriving DecidableEq, Repr

abbrev Verifier (α : Type) := EStateM Failure Diagnostics α

abbrev Verdict := Except Failure Unit

namespace Verifier

def report (d : Diagnostic) : Verifier Unit := fun c => .error .failure (c.push d)

def outcome (v : Verifier Unit) (c : Diagnostics) : Bool × Diagnostics :=
  match v c with
  | .ok () c => (true, c)
  | .error _ c => (false, c)

end Verifier

namespace OpKind

/-- Checks the counts and the attributes of an operation. All that is wrong is gathered first and
then reported, whatever becomes of the reports. -/
def verifyStructure (kind : OpKind) (o : Operation) : Verifier Unit := do
  let found := kind.structureFindings o
  if found.isEmpty then return
  found.forM fun d => discard (observing (Verifier.report d))
  throw .failure

end OpKind

inductive Transfer where
  | load
  | store
deriving DecidableEq, Repr

namespace Transfer

def instr : Transfer → Instr
  | load => .load
  | store => .store

def moved? (m : Transfer) (o : Operation) : Option Ty :=
  match m with
  | load => o.resultTypes[0]?
  | store => o.operandTypes[1]?

def mismatch : Transfer → String
  | load => "result type must match pointee type of pointer"
  | store => "value type must match pointee type of pointer"

def notPointer : String := "expected 'ptr' type for 'ptr' operand"

def verifyPointee (m : Transfer) (o : Operation) (pointer moved : Ty) : Verifier Unit :=
  match pointer.pointee? with
  | none => Verifier.report (.ofOperation o .typeMismatch notPointer)
  | some pointee =>
    if pointee ≠ moved then Verifier.report (.ofOperation o .typeMismatch m.mismatch)
    else return

/-- Checks a load or a store. A pointer or a value that is not there would be no news: the counts
have been checked before. -/
def verify (m : Transfer) (o : Operation) : Verifier Unit := do
  OpKind.verifyStructure (.instr m.instr) o
  match o.operandTypes[0]?, m.moved? o with
  | some pointer, some moved => m.verifyPointee o pointer moved
  | _, _ => throw .failure

end Transfer

namespace Signature

def countText (s : Signature) (found : Nat) : String :=
  "has " ++ toString found ++ " operands, but enclosing function (@" ++
    s.identifier.getD "" ++ ") returns " ++ toString s.returns.length

def typeText (s : Signature) (n : Nat) (actual expected : Ty) : String :=
  "type of return operand " ++ toString n ++ " ('" ++ actual.text ++
    "') doesn't match function result type ('" ++ expected.text ++ "') in function @" ++
    s.identifier.getD ""

/-- Checks one op that returns from the function, given how the ops in front of it went. Every fault
makes the verdict anew. -/
def verifyReturn (s : Signature) (o : Operation) (before : Verdict) : Verifier Verdict :=
  if o.operandTypes.length ≠ s.returns.length then
    observing (Verifier.report (.ofOperation o .counts (s.countText o.operandTypes.length)))
  else
    (o.operandTypes.zip s.returns).zipIdx.foldlM (fun verdict ((actual, expected), n) =>
      if actual ≠ expected then
        observing (Verifier.report (.ofOperation o .typeMismatch (s.typeText n actual expected)))
      else return verdict) before

def verifyReturns (s : Signature) (returnName : String) (ops : List Op) : Verifier Unit := do
  let verdict ← ops.foldlM (fun verdict op =>
    if op.name ≠ returnName then return verdict
    else s.verifyReturn op.operation verdict) (.ok ())
  MonadExcept.ofExcept verdict

end Signature

namespace Op

def verifyStructure (op : Op) : Verifier Unit :=
  op.kind.verifyStructure op.operation

def verifyOwn (op : Op) : Verifier Unit :=
  match op.kind with
  | .funcOp style signature => signature.verifyReturns style.returnName op.children
  | .instr .load => Transfer.load.verify op.operation
  | .instr .store => Transfer.store.verify op.operation
  | _ => return

/-- Checks an op by itself: the rules of its own kind only if it keeps those for all kinds. -/
def verifyAlone (op : Op) : Verifier Unit := do
  match ← observing op.verifyStructure with
  | .ok () => discard (observing op.verifyOwn)
  | .error _ => return

end Op

end BrilIR
