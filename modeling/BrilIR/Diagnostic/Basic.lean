import BrilIR.Op.Basic
import BrilIR.Text.Snippet

/-! What verification finds fault with. -/

namespace BrilIR

namespace Diagnostic

inductive Kind where
  /-- A value has a type that does not fit. -/
  | typeMismatch
  /-- A wrong number of things, or a terminator in the wrong place. -/
  | counts
  | missingAttribute
deriving DecidableEq, Repr

namespace Kind

def name : Kind → String
  | typeMismatch => "TypeMismatch"
  | counts => "Structure"
  | missingAttribute => "MissingAttribute"

def ofName? (s : String) : Option Kind :=
  [typeMismatch, counts, missingAttribute].find? (·.name == s)

end Kind

end Diagnostic

structure Diagnostic where
  location : Option Location
  op : String
  kind : Diagnostic.Kind
  message : String
deriving DecidableEq, Repr

namespace Diagnostic

def ofOperation (o : Operation) (kind : Kind) (message : String) : Diagnostic :=
  ⟨o.location, o.name, kind, message⟩

def complaint (d : Diagnostic) : String :=
  "error: '" ++ Operation.displayName d.op ++ "' op " ++ d.message

def text (d : Diagnostic) : String :=
  (match d.location with | none => "" | some l => l.text ++ ": ") ++ d.complaint

def isShowable (d : Diagnostic) : Bool :=
  d.location.all Location.isShowable

def renderIn (lines : List (List Char)) (d : Diagnostic) : String :=
  match d.location with
  | none => d.complaint
  | some l => snippetOf lines l d.complaint

def render (source : String) (d : Diagnostic) : String :=
  d.renderIn (Text.pieces source.toList)

def isRenderable (d : Diagnostic) : Bool :=
  d.location.all snippetFits

end Diagnostic

end BrilIR
