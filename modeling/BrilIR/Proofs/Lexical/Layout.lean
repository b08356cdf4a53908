import BrilIR.Proofs.Lexical.Tokenization

/-!
Texts that write the same words with other gaps between them. If no gap is empty they are cut into
the same tokens, but for places.
-/

namespace BrilIR

namespace Token

def content (t : Token) : Kind × String := (t.kind, t.lexeme)

inductive Gap : List Char → Prop
  | nil : Gap []
  | blank {c : Char} {cs : List Char} (hb : isBlank c = true) (h : Gap cs) : Gap (c :: cs)
  | comment {body cs : List Char} (hb : '\n' ∉ body) (h : Gap cs) :
      Gap ("//".toList ++ (body ++ '\n' :: cs))

/-- The words in their order, each behind a gap that is not empty, with any gap at the end. -/
inductive Spread : List String → List Char → Prop
  | done {gap : List Char} (h : Gap gap) : Spread [] gap
  | word {w : String} {ws : List String} {gap cs : List Char} (hg : Gap gap) (hne : gap ≠ [])
      (h : Spread ws cs) : Spread (w :: ws) (gap ++ (w.toList ++ cs))

/-- The words in their order, with any gap in front of the first. -/
inductive Layout : List String → List Char → Prop
  | blank {gap : List Char} (h : Gap gap) : Layout [] gap
  | words {w : String} {ws : List String} {gap cs : List Char} (hg : Gap gap) (h : Spread ws cs) :
      Layout (w :: ws) (gap ++ (w.toList ++ cs))

theorem not_isIdentifierChar_of_isBlank {c : Char} (h : isBlank c = true) :
    isIdentifierChar c = false := by
  have hc : ((c = ' ' ∨ c = '\r') ∨ c = '\t') ∨ c = '\n' := by simpa [isBlank] using h
  obtain ((rfl | rfl) | rfl) | rfl := hc <;> decide

/-- No lexeme goes on where text begins that is neither an identifier character nor a bracket. -/
theorem apart_of_boundary {kind : Kind} {cs : List Char} (h : Boundary cs)
    (hg : cs.head? ≠ some '>') : Apart kind cs := by
  cases kind with
  | minus => exact hg
  | bareIdentifier | atIdentifier | percentIdentifier | caretIdentifier => exact h
  | floatLiteral | integer | intType | floatType | kwTrue | kwFalse | eof => exact h
  | _ => trivial

theorem Gap.apart {kind : Kind} {gap rest : List Char} (h : Gap gap) (hne : gap ≠ []) :
    Apart kind (gap ++ rest) := by
  cases h with
  | nil => exact absurd rfl hne
  | @blank c cs hb _ =>
    refine apart_of_boundary (boundary_cons.2 (not_isIdentifierChar_of_isBlank hb)) ?_
    intro e
    cases e
    exact absurd hb (by decide)
  | comment _ _ => exact apart_of_boundary (boundary_cons.2 (by decide)) (by simp)

theorem Spread.apart {kind : Kind} {ws : List String} {cs : List Char} (h : Spread ws cs) :
    Apart kind cs := by
  cases h with
  | done hg =>
    by_cases hne : cs = []
    · rw [hne]
      exact .nil kind
    · have happart : Apart kind (cs ++ []) := hg.apart hne
      rwa [List.append_nil] at happart
  | word hg hne _ => exact hg.apart hne

end Token

namespace TokenStream

open Token

theorem exists_scanFrom_gap {gap : List Char} (h : Gap gap) (l : Location) (rest : List Char) :
    ∃ l', scanFrom 0 l (gap ++ rest) = scanFrom 0 l' rest := by
  induction h generalizing l with
  | nil => exact ⟨l, rfl⟩
  | @blank c cs hb _ ih =>
    obtain ⟨l', e⟩ := ih (if c = '\n' then l.nextLine else l.right 1)
    refine ⟨l', ?_⟩
    rw [List.cons_append, scanFrom, front_of_isBlank hb]
    exact e
  | @comment body cs hb _ ih =>
    obtain ⟨l', e⟩ := ih (l.right ("//".toList ++ body).length).nextLine
    refine ⟨l', ?_⟩
    have hend : ∀ c ∈ ('\n' :: (cs ++ rest)).head?, c = '\n' := by
      intro c hc
      cases hc
      rfl
    have hfeed : front '\n' (cs ++ rest) = .gap 0 := front_of_isBlank (by decide) _
    have hcomment := scanFrom_comment l hb hend
    rw [scanFrom, hfeed] at hcomment
    simp only [List.append_assoc, List.cons_append]
    exact hcomment.trans e

theorem exists_scanFrom_word {t : Token} {gap cs : List Char} {us : List (Kind × String)}
    (ht : Lexeme t.kind t.lexeme.toList) (hg : Gap gap) (hcs : Apart t.kind cs)
    (h : ∀ l, ∃ s, scanFrom 0 l cs = .ok s ∧ s.tokens.map content = us) (l : Location) :
    ∃ s, scanFrom 0 l (gap ++ (t.lexeme.toList ++ cs)) = .ok s ∧
      s.tokens.map content = t.content :: us := by
  obtain ⟨l₁, e₁⟩ := exists_scanFrom_gap hg l (t.lexeme.toList ++ cs)
  obtain ⟨l₂, e₂⟩ := scanFrom_lexeme l₁ ht hcs
  obtain ⟨s, e, hs⟩ := h l₂
  refine ⟨cons ⟨t.kind, t.lexeme, l₁⟩ s, ?_, ?_⟩
  · rw [e₁, e₂, e]
    rfl
  · rw [← hs]
    rfl

theorem exists_scanFrom_blank {gap : List Char} (hg : Gap gap) (l : Location) :
    ∃ s, scanFrom 0 l gap = .ok s ∧ s.tokens.map content = [] := by
  obtain ⟨l', e⟩ := exists_scanFrom_gap hg l []
  rw [List.append_nil] at e
  exact ⟨⟨[], l'⟩, e, rfl⟩

theorem exists_scanFrom_spread {ts : List Token} {cs : List Char}
    (h : Spread (ts.map (·.lexeme)) cs) (ht : ∀ t ∈ ts, Lexeme t.kind t.lexeme.toList)
    (l : Location) : ∃ s, scanFrom 0 l cs = .ok s ∧ s.tokens.map content = ts.map content := by
  induction ts generalizing cs l with
  | nil =>
    cases h with
    | done hg => exact exists_scanFrom_blank hg l
  | cons t ts ih =>
    obtain ⟨hhead, htail⟩ := List.forall_mem_cons.1 ht
    cases h with
    | word hg _ h => exact exists_scanFrom_word hhead hg h.apart (ih h htail) l

/-- A text that lays the words of a source out with gaps of its own is cut into the same tokens. -/
theorem exists_scan_layout {source source' : String} {s : TokenStream} (hs : scan source = .ok s)
    (h : Layout (s.tokens.map (·.lexeme)) source'.toList) :
    ∃ s', scan source' = .ok s' ∧ s'.tokens.map content = s.tokens.map content := by
  have hlex := lexeme_of_scan hs
  generalize s.tokens = ts at h hlex
  unfold scan
  generalize source'.toList = cs at h
  cases ts with
  | nil =>
    cases h with
    | blank hg => exact exists_scanFrom_blank hg .origin
  | cons t ts =>
    obtain ⟨hhead, htail⟩ := List.forall_mem_cons.1 hlex
    cases h with
    | words hg h =>
      exact exists_scanFrom_word hhead hg h.apart (exists_scanFrom_spread h htail) .origin

end TokenStream

end BrilIR
