import BrilIR.Unicode.WhiteSpace

/-! Texts as lists of lines. -/

namespace BrilIR.Text

def pieces : List Char → List (List Char)
  | [] => [[]]
  | c :: cs =>
    if c = '\n' then [] :: pieces cs
    else match pieces cs with
      | [] => [[c]]
      | l :: ls => (c :: l) :: ls

theorem pieces_ne_nil (cs : List Char) : pieces cs ≠ [] := by
  cases cs with
  | nil => simp [pieces]
  | cons c cs =>
    simp only [pieces]
    split
    · simp
    · split <;> simp

/-- A carriage return before a line feed belongs to the line's ending. -/
def dropReturn (l : List Char) : List Char :=
  if l.getLast? = some '\r' then l.dropLast else l

/-- The lines of a text. A line feed ends a line, so none follows the last one. -/
def lines (cs : List Char) : List (List Char) :=
  match (pieces cs).reverse with
  | [] => []
  | last :: before =>
    (before.reverse.map dropReturn) ++ (if last.isEmpty then [] else [last])

def trim (cs : List Char) : List Char :=
  ((cs.dropWhile Unicode.isWhiteSpace).reverse.dropWhile Unicode.isWhiteSpace).reverse

def occursIn (part : List Char) : List Char → Bool
  | [] => part.isEmpty
  | c :: cs => part.isPrefixOf (c :: cs) || occursIn part cs

end BrilIR.Text
