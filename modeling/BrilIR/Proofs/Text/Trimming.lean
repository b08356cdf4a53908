import Mathlib.Data.List.DropRight
import Mathlib.Data.List.Infix
import BrilIR.Proofs.Diagnostic.Rendering
import BrilIR.Text.Comparison

/-!
Trimmed texts and the lines in them. What is left of the lines of a text when each of them is
trimmed and the blank ones are left out does not change if the text as a whole is trimmed first.
-/

namespace BrilIR.Text

open Unicode

variable {c : Char} {cs l part : List Char}

theorem trim_eq_rdropWhile (cs : List Char) :
    trim cs = (cs.dropWhile isWhiteSpace).rdropWhile isWhiteSpace := rfl

theorem trim_cons (h : isWhiteSpace c = true) (cs : List Char) : trim (c :: cs) = trim cs := by
  rw [trim, List.dropWhile_cons_of_pos h, trim]

theorem trim_concat (h : isWhiteSpace c = true) (cs : List Char) : trim (cs ++ [c]) = trim cs := by
  simp only [trim_eq_rdropWhile, List.dropWhile_append]
  cases hcs : cs.dropWhile isWhiteSpace with
  | nil => simp [h]
  | cons d ds =>
    simp only [List.isEmpty_cons, Bool.false_eq_true, if_false]
    exact List.rdropWhile_concat_pos _ _ _ h

theorem trim_dropReturn (l : List Char) : trim (dropReturn l) = trim l := by
  unfold dropReturn
  split
  · next h =>
    obtain ⟨body, rfl⟩ := List.getLast?_eq_some_iff.1 h
    rw [List.dropLast_concat, trim_concat (by decide)]
  · rfl

theorem not_isWhiteSpace_head?_trim (h : (trim l).head? = some c) : isWhiteSpace c = false := by
  obtain ⟨rest, e⟩ := List.rdropWhile_prefix isWhiteSpace (l.dropWhile isWhiteSpace)
  have hhead : (l.dropWhile isWhiteSpace).head? = some c := by
    rw [← e, List.head?_append, ← trim_eq_rdropWhile, h]
    rfl
  have hnot := List.head?_dropWhile_not isWhiteSpace l
  rwa [hhead] at hnot

theorem not_isWhiteSpace_getLast?_trim (h : (trim l).getLast? = some c) :
    isWhiteSpace c = false := by
  have hnot := List.head?_dropWhile_not isWhiteSpace (l.dropWhile isWhiteSpace).reverse
  rw [trim, List.getLast?_reverse] at h
  rwa [h] at hnot

/-! Texts that occur in others. -/

theorem occursIn_iff (part cs : List Char) : occursIn part cs = true ↔ part <:+: cs := by
  induction cs with
  | nil => simp [occursIn]
  | cons c cs ih => simp [occursIn, ih, List.infix_cons_iff]

/-- White space at the front of a text holds nothing of a part that begins otherwise. -/
theorem infix_dropWhile (h : ∀ c, part.head? = some c → isWhiteSpace c = false)
    (hp : part <:+: l) : part <:+: l.dropWhile isWhiteSpace := by
  obtain ⟨before, after, rfl⟩ := hp
  cases part with
  | nil => exact List.nil_infix
  | cons c part =>
    have hc : (c :: part ++ after).dropWhile isWhiteSpace = c :: part ++ after := by
      rw [List.cons_append, List.dropWhile_cons_of_neg]
      simp [h c rfl]
    rw [List.append_assoc, List.dropWhile_append, hc]
    split
    · exact (List.prefix_append _ _).isInfix
    · exact ⟨_, after, List.append_assoc _ _ _⟩

theorem trim_infix_self (l : List Char) : trim l <:+: l :=
  (List.rdropWhile_prefix isWhiteSpace (l.dropWhile isWhiteSpace)).isInfix.trans
    (List.dropWhile_suffix _).isInfix

/-- A trimmed text occurs in a line exactly if it does without the white space at the ends of the
line. -/
theorem trim_infix_trim_iff (l a : List Char) : trim l <:+: trim a ↔ trim l <:+: a := by
  constructor
  · intro h
    exact h.trans (trim_infix_self a)
  · intro h
    have hfront : trim l <:+: a.dropWhile isWhiteSpace :=
      infix_dropWhile (fun c hc => not_isWhiteSpace_head?_trim hc) h
    have hback : (trim l).reverse <:+:
        (a.dropWhile isWhiteSpace).reverse.dropWhile isWhiteSpace := by
      refine infix_dropWhile (fun c hc => ?_) (List.reverse_infix.2 hfront)
      rw [List.head?_reverse] at hc
      exact not_isWhiteSpace_getLast?_trim hc
    have htrim := List.reverse_infix.2 hback
    rwa [List.reverse_reverse] at htrim

/-! The trimmed lines of a text. -/

def parts (ls : List (List Char)) : List (List Char) := (ls.map trim).filter (· ≠ [])

theorem parts_cons_of_blank {ls : List (List Char)} (h : trim l = []) :
    parts (l :: ls) = parts ls := by
  simp [parts, h]

theorem parts_cons_of_ne {ls : List (List Char)} (h : trim l ≠ []) :
    parts (l :: ls) = trim l :: parts ls := by
  simp [parts, h]

theorem parts_append (ls ms : List (List Char)) : parts (ls ++ ms) = parts ls ++ parts ms := by
  simp [parts]

theorem parts_congr {ls ms : List (List Char)} (h : ls.map trim = ms.map trim) :
    parts ls = parts ms := by
  rw [parts, h, parts]

theorem exists_of_mem_parts {ls : List (List Char)} (h : part ∈ parts ls) : ∃ l, part = trim l := by
  obtain ⟨hmem, -⟩ := List.mem_filter.1 h
  obtain ⟨l, -, e⟩ := List.mem_map.1 hmem
  exact ⟨l, e.symm⟩

theorem parts_lines (cs : List Char) : parts (lines cs) = parts (pieces cs) := by
  have hmap (ls : List (List Char)) : (ls.map dropReturn).map trim = ls.map trim := by
    simp only [List.map_map, Function.comp_def, trim_dropReturn]
  have hpieces : pieces cs = (pieces cs).reverse.reverse := (List.reverse_reverse _).symm
  unfold lines
  split
  · next h => rw [hpieces, h]; rfl
  · next last before h =>
    rw [hpieces, h, List.reverse_cons, parts_append, parts_append, parts_congr (hmap _)]
    cases last with
    | nil => rfl
    | cons c last => rfl

theorem parts_pieces_cons (h : isWhiteSpace c = true) (cs : List Char) :
    parts (pieces (c :: cs)) = parts (pieces cs) := by
  by_cases hc : c = '\n'
  · rw [pieces, if_pos hc]
    exact parts_cons_of_blank rfl
  · rw [pieces, if_neg hc]
    cases hp : pieces cs with
    | nil => exact absurd hp (pieces_ne_nil cs)
    | cons l ls => exact parts_congr (by simp [trim_cons h])

theorem exists_pieces_concat (hc : c ≠ '\n') (cs : List Char) :
    ∃ ls l, pieces cs = ls ++ [l] ∧ pieces (cs ++ [c]) = ls ++ [l ++ [c]] := by
  induction cs with
  | nil => exact ⟨[], [], rfl, by simp [pieces, hc]⟩
  | cons d cs ih =>
    obtain ⟨ls, l, e, e'⟩ := ih
    simp only [List.cons_append, pieces, e, e']
    by_cases hd : d = '\n'
    · simp only [if_pos hd]
      exact ⟨[] :: ls, l, rfl, rfl⟩
    · simp only [if_neg hd]
      cases ls with
      | nil => exact ⟨[], d :: l, rfl, rfl⟩
      | cons m ls => exact ⟨(d :: m) :: ls, l, rfl, rfl⟩

theorem parts_pieces_concat (h : isWhiteSpace c = true) (cs : List Char) :
    parts (pieces (cs ++ [c])) = parts (pieces cs) := by
  by_cases hc : c = '\n'
  · subst hc
    rw [pieces_append_feed, parts_append]
    exact List.append_nil _
  · obtain ⟨ls, l, e, e'⟩ := exists_pieces_concat hc cs
    rw [e, e']
    exact parts_congr (by simp [trim_concat h])

theorem parts_lines_trim (cs : List Char) : parts (lines (trim cs)) = parts (lines cs) := by
  have hfront : parts (pieces (cs.dropWhile isWhiteSpace)) = parts (pieces cs) := by
    induction cs with
    | nil => rfl
    | cons c cs ih =>
      by_cases hc : isWhiteSpace c = true
      · rw [List.dropWhile_cons_of_pos hc, ih, parts_pieces_cons hc]
      · rw [List.dropWhile_cons_of_neg hc]
  have hback (cs : List Char) :
      parts (pieces (cs.rdropWhile isWhiteSpace)) = parts (pieces cs) := by
    induction cs using List.reverseRecOn with
    | nil => rfl
    | append_singleton cs c ih =>
      by_cases hc : isWhiteSpace c = true
      · rw [List.rdropWhile_concat_pos _ _ _ hc, ih, parts_pieces_concat hc]
      · rw [List.rdropWhile_concat_neg _ _ _ hc]
  rw [parts_lines, parts_lines, trim_eq_rdropWhile, hback, hfront]

end BrilIR.Text
