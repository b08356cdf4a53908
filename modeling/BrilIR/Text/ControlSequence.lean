/-!
Texts shown on a terminal. Control characters and control sequences are left out; tabs and line
breaks stay.
-/

namespace BrilIR.Text

def isBetween (a b c : Char) : Bool := a ≤ c && c ≤ b

def isLayout (c : Char) : Bool :=
  c = '\t' || c = '\n' || c = '\x0c' || c = '\r'

def isPlain (c : Char) : Bool :=
  isLayout c || (' ' ≤ c && c ≠ '\x7f')

inductive ControlState where
  | ground
  | escape
  | intermediate
  | sequence
  | deviceEntry
  | deviceParameter
  | deviceIntermediate
  | string
  | systemCommand
deriving DecidableEq, Repr

namespace ControlState

def shows : ControlState → Char → Bool
  | ground, c => isPlain c
  | escape, c | intermediate, c | sequence, c => isLayout c
  | _, _ => false

/-- The byte that ends a control string. It may be a part of a longer character. -/
def stringTerminator : UInt8 := 0x9c

def next (s : ControlState) (c : Char) : ControlState :=
  if c = '\x1b' then escape
  else if c = '\x18' || c = '\x1a' then ground
  else match s with
  | ground => ground
  | escape =>
    if isBetween ' ' '/' c then intermediate
    else if c = '[' then sequence
    else if c = ']' then systemCommand
    else if c = 'P' then deviceEntry
    else if c = 'X' || c = '^' || c = '_' then string
    else if isBetween '0' '~' c then ground
    else escape
  | intermediate => if isBetween '0' '~' c then ground else intermediate
  | sequence => if isBetween '@' '~' c then ground else sequence
  | deviceEntry =>
    if isBetween ' ' '/' c then deviceIntermediate
    else if isBetween '0' '?' c then deviceParameter
    else if isBetween '@' '~' c then string
    else deviceEntry
  | deviceParameter =>
    if isBetween ' ' '/' c then deviceIntermediate
    else if isBetween '<' '~' c then string
    else deviceParameter
  | deviceIntermediate => if isBetween '0' '~' c then string else deviceIntermediate
  | string => if (String.utf8EncodeChar c).contains stringTerminator then ground else string
  | systemCommand => if c = '\x07' then ground else systemCommand

end ControlState

open ControlState

/-- What is shown of a text that stands in `s`. In a row of shown characters (`row`) all plain ones
are shown, whatever the state. -/
def plainFrom (row : Bool) (s : ControlState) : List Char → List Char
  | [] => []
  | c :: cs =>
    if (row && isPlain c) || s.shows c then
      c :: plainFrom true (if '\x7f' < c then ground else s) cs
    else plainFrom false (s.next c) cs

def plain (cs : List Char) : List Char := plainFrom false ground cs

end BrilIR.Text
