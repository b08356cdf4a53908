import BrilIR.Text.Lines
import BrilIR.Text.Location

/-! Messages shown below the source line they speak of. -/

namespace BrilIR

/-- The line before `loc`, if there is one, the line of `loc`, and a caret at its column with the
message. The caret is moved by the width of the line number and its separator. -/
def snippetOf (lines : List (List Char)) (loc : Location) (message : String) : String :=
  let above :=
    match loc.line with
    | 0 => ""
    | n + 1 =>
      match lines[n]? with
      | some l => "\n" ++ toString (n + 1) ++ "  | " ++ String.ofList l
      | none => ""
  let number := toString (loc.line + 1)
  let line := String.ofList (lines[loc.line]?.getD [])
  let indent := String.ofList (List.replicate (loc.column + (4 + number.length)) ' ')
  "```" ++ above ++ "\n" ++ number ++ "  | " ++ line ++ "\n" ++ indent ++ "^ " ++ message ++ "\n```"

def snippet (source : String) (loc : Location) (message : String) : String :=
  snippetOf (Text.pieces source.toList) loc message

/-- Whether the line number is one of 64 bits and the caret is moved by less than half of that. -/
def snippetFits (loc : Location) : Bool :=
  loc.line + 1 < UInt64.size &&
    loc.column + (4 + (toString (loc.line + 1)).length) < UInt64.size / 2

end BrilIR
