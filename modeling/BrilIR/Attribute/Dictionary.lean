import BrilIR.Attribute.Basic

/-! Attribute dictionaries, which are kept and shown in the order of their keys. -/

namespace BrilIR

/-- Attributes by name. The keys increase, so equal dictionaries have equal entries. -/
structure Attributes where
  entries : List (String × Attribute)
  sorted : entries.Pairwise fun a b => a.1 < b.1
deriving DecidableEq

namespace Attributes

instance : EmptyCollection Attributes := ⟨⟨[], .nil⟩⟩

instance : Inhabited Attributes := ⟨∅⟩

def insertEntry (key : String) (a : Attribute) :
    List (String × Attribute) → List (String × Attribute)
  | [] => [(key, a)]
  | e :: es =>
    if key < e.1 then (key, a) :: e :: es
    else if e.1 < key then e :: insertEntry key a es
    else (key, a) :: es

theorem mem_insertEntry {key : String} {a : Attribute} {es : List (String × Attribute)}
    {e : String × Attribute} (h : e ∈ insertEntry key a es) : e = (key, a) ∨ e ∈ es := by
  induction es with
  | nil => simpa [insertEntry] using h
  | cons d ds ih =>
    simp only [insertEntry] at h
    split at h
    · simpa using h
    · split at h
      · rcases List.mem_cons.1 h with h | h
        · exact .inr (by simp [h])
        · rcases ih h with h | h
          · exact .inl h
          · exact .inr (by simp [h])
      · rcases List.mem_cons.1 h with h | h
        · exact .inl h
        · exact .inr (by simp [h])

theorem pairwise_insertEntry {key : String} {a : Attribute} {es : List (String × Attribute)}
    (h : es.Pairwise fun a b => a.1 < b.1) :
    (insertEntry key a es).Pairwise fun a b => a.1 < b.1 := by
  induction es with
  | nil => simp [insertEntry]
  | cons d ds ih =>
    have hd := List.pairwise_cons.1 h
    simp only [insertEntry]
    split
    · next hlt =>
      refine List.pairwise_cons.2 ⟨fun e he => ?_, h⟩
      rcases List.mem_cons.1 he with he | he
      · simpa [he] using hlt
      · exact String.lt_trans hlt (hd.1 e he)
    · split
      · next hgt =>
        refine List.pairwise_cons.2 ⟨fun e he => ?_, ih hd.2⟩
        rcases mem_insertEntry he with he | he
        · simpa [he] using hgt
        · exact hd.1 e he
      · next hlt hgt =>
        have heq : key = d.1 :=
          String.le_antisymm (String.not_lt.1 hgt) (String.not_lt.1 hlt)
        refine List.pairwise_cons.2 ⟨fun e he => ?_, hd.2⟩
        simpa [heq] using hd.1 e he

def insert (d : Attributes) (key : String) (a : Attribute) : Attributes :=
  ⟨insertEntry key a d.entries, pairwise_insertEntry d.sorted⟩

def get? (d : Attributes) (key : String) : Option Attribute :=
  (d.entries.find? (·.1 == key)).map (·.2)

def contains (d : Attributes) (key : String) : Bool :=
  d.entries.any (·.1 == key)

def isEmpty (d : Attributes) : Bool := d.entries.isEmpty

def ofList (es : List (String × Attribute)) : Attributes :=
  es.foldl (fun d e => d.insert e.1 e.2) ∅

def entryText (e : String × Attribute) : String := e.1 ++ " = " ++ e.2.text

/-- The entries in braces behind a space; nothing for the empty dictionary. -/
def text (d : Attributes) : String :=
  if d.isEmpty then ""
  else " \x7b" ++ ", ".intercalate (d.entries.map entryText) ++ "\x7d"

def entriesEqual : List (String × Attribute) → List (String × Attribute) → Bool
  | [], [] => true
  | a :: as, b :: bs => a.1 == b.1 && a.2.equal b.2 && entriesEqual as bs
  | _, _ => false

def equal (d e : Attributes) : Bool := entriesEqual d.entries e.entries

end Attributes

end BrilIR
