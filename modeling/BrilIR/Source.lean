import BrilIR.Op.Parser
import BrilIR.Op.Printer
import BrilIR.Token.Lexer
import BrilIR.Verify.Pass

/-! From source text to a verified tree and its canonical text. -/

namespace BrilIR

/-- Why a source is rejected before verification. -/
inductive SourceError where
  | lexical (e : LexError)
  | grammatical (e : ParseError)
deriving DecidableEq, Repr

def SourceError.render (source : String) : SourceError → String
  | lexical e => e.render source
  | grammatical e => e.render source

/-- Why a source is not printed. -/
inductive Rejection where
  | unreadable (e : SourceError)
  | unsound (found : Diagnostics)
deriving DecidableEq, Repr

def Diagnostics.failureText (source : String) (c : Diagnostics) : String :=
  "verification failed with " ++ toString c.kept.length ++ " error(s):\n" ++ c.render source

def Rejection.render (source : String) : Rejection → String
  | unreadable e => e.render source
  | unsound found => found.failureText source

/-- Whether to verify, and how many diagnostics to keep; zero stands for no limit. -/
structure VerifyOptions where
  verify : Bool := true
  maxDiagnostics : Nat := 0
deriving DecidableEq, Repr

namespace Op

def verifyOrFail (limit : Nat) (op : Op) : Except Diagnostics Unit :=
  let found := op.verify limit
  if found.kept.isEmpty then .ok () else .error found

def readAll (source : String) : Except SourceError (List Op) :=
  match TokenStream.scan source with
  | .error e => .error (.lexical e)
  | .ok tokens =>
    match parseAll (.ofTokens tokens) with
    | .ok ops _ => .ok ops
    | .error e _ => .error (.grammatical e)

def ofSource (source : String) : Except SourceError Op :=
  (readAll source).map ofTopLevel

end Op

namespace VerifyOptions

def text (o : VerifyOptions) : String :=
  "VerifyOptions \x7b verify: " ++ (if o.verify then "true" else "false") ++
    ", config: VerifyConfig \x7b max_diagnostics: " ++ toString o.maxDiagnostics ++ " \x7d \x7d"

def check (o : VerifyOptions) (source : String) : Except Rejection Op :=
  match Op.ofSource source with
  | .error e => .error (.unreadable e)
  | .ok op =>
    if o.verify then
      match op.verifyOrFail o.maxDiagnostics with
      | .error found => .error (.unsound found)
      | .ok () => .ok op
    else .ok op

def format (o : VerifyOptions) (source : String) : Except Rejection String :=
  (o.check source).map Op.text

/-- The names of the ops whose reading in the general form was begun, in order. -/
def readingSteps (source : String) : List String :=
  match TokenStream.scan source with
  | .error _ => []
  | .ok tokens =>
    match Op.parseAll (.ofTokens tokens) with
    | .ok _ s => s.begun.reverse
    | .error _ s => s.begun.reverse

def verifyingLog (o : VerifyOptions) (op : Op) : List String :=
  let p := op.verifyFrom ⟨{ limit := o.maxDiagnostics }, []⟩
  p.visited.reverse.map ("DEBUG Verifying " ++ ·) ++
    ["DEBUG Verification found " ++ toString p.diagnostics.kept.length ++ " error(s)"] ++
    (if p.diagnostics.kept.isEmpty then [" INFO Verification succeeded"] else [])

def log (o : VerifyOptions) (source : String) : List String :=
  ["DEBUG Running with " ++ o.text] ++
    (readingSteps source).map ("DEBUG Parsing " ++ ·) ++
    (match Op.ofSource source with
      | .error _ => []
      | .ok op => if o.verify then o.verifyingLog op else [])

end VerifyOptions

end BrilIR
