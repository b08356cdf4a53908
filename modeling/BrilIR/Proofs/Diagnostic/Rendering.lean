import BrilIR.Diagnostic.Basic
import BrilIR.Proofs.Lexical.Place

/-! What is shown of a diagnostic: the line of its place, and a caret below the character there. -/

namespace BrilIR

namespace Text

theorem pieces_append_feed (as bs : List Char) :
    pieces (as ++ '\n' :: bs) = pieces as ++ pieces bs := by
  induction as with
  | nil => rfl
  | cons c as ih =>
    by_cases hc : c = '\n'
    · simp only [List.cons_append, pieces, if_pos hc, ih]
    · simp only [List.cons_append, pieces, if_neg hc, ih]
      cases hp : pieces as with
      | nil => exact absurd hp (pieces_ne_nil as)
      | cons l ls => rfl

theorem length_pieces (cs : List Char) : (pieces cs).length = cs.count '\n' + 1 := by
  induction cs with
  | nil => rfl
  | cons c cs ih =>
    by_cases hc : c = '\n'
    · simp [pieces, hc, ih]
    · have hcount : (c :: cs).count '\n' = cs.count '\n' := by simp [hc]
      rw [hcount, ← ih]
      simp only [pieces, if_neg hc]
      cases hp : pieces cs with
      | nil => exact absurd hp (pieces_ne_nil cs)
      | cons l ls => rfl

theorem head?_pieces (cs : List Char) : (pieces cs)[0]? = some (cs.takeWhile (· ≠ '\n')) := by
  induction cs with
  | nil => rfl
  | cons c cs ih =>
    by_cases hc : c = '\n'
    · simp [pieces, hc]
    · simp only [pieces, if_neg hc]
      cases hp : pieces cs with
      | nil => exact absurd hp (pieces_ne_nil cs)
      | cons l ls =>
        rw [hp] at ih
        have hl : l = cs.takeWhile (· ≠ '\n') := Option.some.inj ih
        simp [hc, hl]

/-- The line of a place has what stands in front of the place on the line, and what follows up to
the next line feed. -/
theorem line_placeBehind (before rest : List Char) :
    (pieces (before ++ rest))[(placeBehind before).line]? =
      some ((before.reverse.takeWhile (· ≠ '\n')).reverse ++ rest.takeWhile (· ≠ '\n')) := by
  -- `line` is what stands behind the last line feed, read backwards
  have hsplit := List.takeWhile_append_dropWhile (p := (· ≠ '\n')) (l := before.reverse)
  generalize hline : before.reverse.takeWhile (· ≠ '\n') = line at hsplit
  have hfeed : '\n' ∉ line.reverse := by
    intro hm
    rw [← hline, List.mem_reverse] at hm
    have := List.all_eq_true.1 List.all_takeWhile _ hm
    simp at this
  have hhead : (pieces (line.reverse ++ rest))[0]? =
      some (line.reverse ++ rest.takeWhile (· ≠ '\n')) := by
    rw [head?_pieces, List.takeWhile_append_of_pos]
    intro c hc
    have hne : c ≠ '\n' := fun e => hfeed (e ▸ hc)
    exact decide_eq_true hne
  have hcount : line.reverse.count '\n' = 0 := List.count_eq_zero_of_not_mem hfeed
  cases hdrop : before.reverse.dropWhile (· ≠ '\n') with
  | nil =>
    rw [hdrop, List.append_nil] at hsplit
    have hbefore : before = line.reverse := by rw [hsplit, List.reverse_reverse]
    simp only [placeBehind]
    rw [hbefore, hcount]
    exact hhead
  | cons c front =>
    have hc : c = '\n' := by
      have := List.head?_dropWhile_not (· ≠ '\n') before.reverse
      rw [hdrop] at this
      simpa using this
    rw [hdrop, hc] at hsplit
    have hbefore : before = front.reverse ++ '\n' :: line.reverse := by
      have htwice : before.reverse.reverse = before := List.reverse_reverse before
      rw [← htwice, ← hsplit]
      simp
    have hnumber : (placeBehind before).line = (pieces front.reverse).length := by
      simp only [placeBehind, length_pieces]
      rw [hbefore, List.count_append, List.count_cons_self, hcount]
    rw [hnumber, hbefore, List.append_assoc, List.cons_append, pieces_append_feed,
      List.getElem?_append_right (Nat.le_refl _), Nat.sub_self]
    exact hhead

theorem getElem?_line_placeBehind (before : List Char) {rest : List Char} {c : Char}
    (h : rest.head? = some c) (hc : c ≠ '\n') :
    ∃ shown, (pieces (before ++ rest))[(placeBehind before).line]? = some shown ∧
      shown[(placeBehind before).column]? = some c := by
  refine ⟨_, line_placeBehind before rest, ?_⟩
  have hcolumn : (placeBehind before).column =
      (before.reverse.takeWhile (· ≠ '\n')).reverse.length := by
    rw [List.length_reverse, placeBehind]
  cases rest with
  | nil => cases h
  | cons d rest =>
    cases h
    rw [hcolumn, List.getElem?_append_right (Nat.le_refl _), Nat.sub_self]
    simp [hc]

end Text

theorem exists_snippetOf_eq (lines : List (List Char)) (l : Location) (message : String) :
    ∃ above, snippetOf lines l message =
      "```" ++ above ++ "\n" ++ toString (l.line + 1) ++ "  | " ++
      String.ofList (lines[l.line]?.getD []) ++ "\n" ++
      String.ofList (List.replicate (l.column + (4 + (toString (l.line + 1)).length)) ' ') ++
      "^ " ++ message ++ "\n```" :=
  ⟨_, rfl⟩

namespace Diagnostic

def gutter (l : Location) : String := toString (l.line + 1) ++ "  | "

/-- The line of the place is shown whole, and the caret stands below a character of it. -/
def PointsTo (d : Diagnostic) (source : String) (l : Location) (c : Char) : Prop :=
  ∃ shown above, (Text.pieces source.toList)[l.line]? = some shown ∧ shown[l.column]? = some c ∧
    d.render source = above ++ "\n" ++ (gutter l ++ String.ofList shown) ++ "\n" ++
      String.ofList (List.replicate ((gutter l).length + l.column) ' ') ++ "^ " ++ d.complaint ++
      "\n```"

theorem pointsTo_placeBehind {d : Diagnostic} {source : String} {before rest : List Char} {c : Char}
    (h : d.location = some (Text.placeBehind before)) (hs : source.toList = before ++ rest)
    (hr : rest.head? = some c) (hc : c ≠ '\n') :
    d.PointsTo source (Text.placeBehind before) c := by
  obtain ⟨shown, hshown, hcolumn⟩ := Text.getElem?_line_placeBehind before hr hc
  rw [← hs] at hshown
  generalize Text.placeBehind before = l at h hshown hcolumn ⊢
  obtain ⟨above, hsnippet⟩ := exists_snippetOf_eq (Text.pieces source.toList) l d.complaint
  have hwidth : l.column + (4 + (toString (l.line + 1)).length) = (gutter l).length + l.column := by
    have hbar : "  | ".length = 4 := rfl
    rw [gutter, String.length_append, hbar]
    omega
  rw [hshown, Option.getD_some, hwidth] at hsnippet
  refine ⟨shown, "```" ++ above, hshown, hcolumn, ?_⟩
  simp only [render, renderIn, h, hsnippet, gutter, String.append_assoc]

end Diagnostic

end BrilIR
