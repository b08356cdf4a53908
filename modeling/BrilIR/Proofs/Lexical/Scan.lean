import BrilIR.Proofs.Lexical.Lexeme

/-! Cutting a text into tokens, lexeme by lexeme. -/

namespace BrilIR

open Token

namespace TokenStream

def prepend (ts : List Token) (s : TokenStream) : TokenStream := { s with tokens := ts ++ s.tokens }

theorem scanFrom_skip {k : Nat} {cs : List Char} (h : k ≤ cs.length) (l : Location) :
    scanFrom k l cs = scanFrom 0 (l.right k) (cs.drop k) := by
  induction k generalizing l cs with
  | zero => rfl
  | succ k ih =>
    cases cs with
    | nil => simp at h
    | cons c cs =>
      have hk : k ≤ cs.length := by simpa using h
      simp only [scanFrom, List.drop_succ_cons, ih hk]
      congr 1
      simp only [Location.right, Location.mk.injEq, true_and]
      omega

theorem scanFrom_cons_lexeme {c : Char} {cs : List Char} {kind : Kind} {n : Nat} (l : Location)
    (h : front c cs = .lexeme kind n) : scanFrom 0 l (c :: cs) =
      (scanFrom 0 ((l.right 1).right n) (cs.drop n)).map
        (cons ⟨kind, String.ofList (c :: cs.take n), l⟩) := by
  simp only [scanFrom, h, scanFrom_skip (lexeme_of_front h).1]

/-- A word of a class in front of text that does not run into it is the next token. -/
theorem scanFrom_lexeme {kind : Kind} {w : String} {rest : List Char} (l : Location)
    (h : Lexeme kind w.toList) (hr : Apart kind rest) : ∃ l', scanFrom 0 l (w.toList ++ rest) =
      (scanFrom 0 l' rest).map (cons ⟨kind, w, l⟩) := by
  cases hw : w.toList with
  | nil => exact absurd hw h.ne_nil
  | cons c cs =>
    have e := scanFrom_cons_lexeme l (front_of_lexeme (hw ▸ h) hr)
    rw [List.take_left, List.drop_left, ← hw, String.ofList_toList] at e
    exact ⟨_, e⟩

theorem scan_eq_of_toOption {source : String} {s : TokenStream}
    (h : (scan source).toOption = some s) : scan source = .ok s := by
  cases hs : scan source with
  | error e =>
    rw [hs] at h
    cases h
  | ok s' =>
    rw [hs] at h
    cases h
    rfl

theorem lexeme_of_scanFrom {k : Nat} {l : Location} {cs : List Char} {s : TokenStream}
    (h : scanFrom k l cs = .ok s) : ∀ t ∈ s.tokens, Lexeme t.kind t.lexeme.toList := by
  induction cs generalizing k l s with
  | nil =>
    cases h
    simp
  | cons c cs ih =>
    cases k with
    | succ k => exact ih h
    | zero =>
      simp only [scanFrom] at h
      split at h
      · exact ih h
      · next kind n hf =>
        cases hs : scanFrom n (l.right 1) cs with
        | error e => simp [hs, Except.map] at h
        | ok s' =>
          simp only [hs, Except.map, Except.ok.injEq] at h
          subst h
          refine List.forall_mem_cons.2 ⟨?_, ih hs⟩
          simpa using (lexeme_of_front hf).2
      · cases h

theorem lexeme_of_scan {source : String} {s : TokenStream} (h : scan source = .ok s) :
    ∀ t ∈ s.tokens, Lexeme t.kind t.lexeme.toList :=
  lexeme_of_scanFrom h

end TokenStream

end BrilIR
