import BrilIR.Op.Printer
import BrilIR.Proofs.Decimal.Text
import BrilIR.Proofs.Lexical.Place

/-! What an op shows in front of its region has no line ends if its names and texts have none. -/

namespace BrilIR

def Unbroken (s : String) : Prop := '\n' ∉ s.toList

instance (s : String) : Decidable (Unbroken s) := inferInstanceAs (Decidable ('\n' ∉ s.toList))

@[simp] theorem unbroken_append {s t : String} : Unbroken (s ++ t) ↔ Unbroken s ∧ Unbroken t := by
  simp [Unbroken]

@[simp] theorem unbroken_ite {c : Prop} [Decidable c] {s t : String} :
    Unbroken (if c then s else t) ↔ (c → Unbroken s) ∧ (¬ c → Unbroken t) := by
  split <;> simp [*]

theorem unbroken_list {α : Type} {f : α → String} {as : List α} (h : ∀ a ∈ as, Unbroken (f a)) :
    Unbroken (", ".intercalate (as.map f)) := by
  induction as with
  | nil =>
    rw [List.map_nil]
    decide
  | cons a as ih =>
    obtain ⟨ha, has⟩ := List.forall_mem_cons.1 h
    cases as with
    | nil =>
      rw [List.map_singleton, String.intercalate_singleton]
      exact ha
    | cons b bs =>
      rw [List.map_cons, List.map_cons, String.intercalate_cons_cons, unbroken_append,
        unbroken_append]
      exact ⟨⟨ha, by decide⟩, ih has⟩

@[simp] theorem unbroken_natRepr (n : Nat) : Unbroken n.repr := by
  have hd : '\n' ∉ Nat.toDigits 10 n := Token.feed_notMem_of_digits isDigit_of_mem_toDigits
  simpa [Unbroken] using hd

@[simp] theorem unbroken_intRepr (i : Int) : Unbroken i.repr := by
  have h := toString_int i
  simp only [Int.toString_eq_repr, Nat.toString_eq_repr] at h
  simp +decide [h]

/-! The texts of the parts of an op. -/

@[simp] theorem Ty.unbroken_text (t : Ty) : Unbroken t.text := by
  induction t with
  | int width => simp +decide [text]
  | float format => cases format <;> decide
  | ptr pointee ih => simp +decide [text, ih]

@[simp] theorem Ty.unbroken_listText (ts : List Ty) : Unbroken (listText ts) :=
  unbroken_list fun t _ => t.unbroken_text

@[simp] theorem unbroken_resultsText (ts : List Ty) : Unbroken (resultsText ts) := by
  unfold resultsText
  split <;> simp +decide

theorem Binary64.unbroken_text (x : Binary64) : Unbroken x.text := by
  by_cases hx : x.Finite
  · obtain ⟨w, e, hw, -⟩ := exists_text hx
    have hw : Unbroken w := hw.feed_notMem
    simp +decide [e, hw]
  · unfold text
    split
    · decide
    · next hnan =>
      have hinf : x.isInfinite = true := by
        simp only [isNaN, isInfinite, decide_eq_true_eq, beq_iff_eq] at hnan ⊢
        exact Nat.le_antisymm (Nat.le_of_not_lt hnan) (Nat.le_of_not_lt hx)
      simp +decide [hinf]

def Attribute.Unbroken : Attribute → Prop
  | string s => BrilIR.Unbroken s
  | symbol s => BrilIR.Unbroken s
  | _ => True

theorem Attribute.unbroken_text {a : Attribute} (h : a.Unbroken) : BrilIR.Unbroken a.text := by
  cases a with
  | int value t =>
    simp +decide [text]
  | float x t => simp +decide [text, x.unbroken_text]
  | bool b => cases b <;> decide
  | string s =>
    have hs : BrilIR.Unbroken s := h
    simp +decide [text, hs]
  | symbol s =>
    have hs : BrilIR.Unbroken s := h
    simp +decide [text, hs]
  | type t => exact t.unbroken_text

theorem Attributes.unbroken_text {d : Attributes}
    (h : ∀ e ∈ d.entries, Unbroken e.1 ∧ e.2.Unbroken) : Unbroken d.text := by
  have hentries : Unbroken (", ".intercalate (d.entries.map entryText)) := by
    refine unbroken_list fun e he => ?_
    obtain ⟨hkey, ha⟩ := h e he
    simp +decide [entryText, hkey, Attribute.unbroken_text ha]
  simp +decide [text, hentries]

theorem Value.unbroken_listText {vs : List Value} (h : ∀ v ∈ vs, Unbroken v.name) :
    Unbroken (listText vs) := by
  refine unbroken_list fun v hv => ?_
  have hname := h v hv
  cases v with
  | argument name t =>
    have hname : Unbroken name := hname
    simp +decide [text, hname]
  | result name t => exact hname

theorem Value.unbroken_usesText {vs : List Value} (h : ∀ v ∈ vs, Unbroken v.name) :
    Unbroken (usesText vs) :=
  unbroken_list h

structure Operation.Unbroken (o : Operation) : Prop where
  name : BrilIR.Unbroken o.name
  arguments : ∀ v ∈ o.arguments, BrilIR.Unbroken v.name
  operands : ∀ v ∈ o.operands, BrilIR.Unbroken v.name
  results : ∀ v ∈ o.results, BrilIR.Unbroken v.name
  attributes : ∀ e ∈ o.attributes.entries, BrilIR.Unbroken e.1 ∧ e.2.Unbroken
  successors : ∀ label ∈ o.successors, BrilIR.Unbroken label

def OpKind.Unbroken : OpKind → Prop
  | funcOp _ signature => ∀ s ∈ signature.identifier, BrilIR.Unbroken s
  | _ => True

theorem OpKind.unbroken_headText {kind : OpKind} {o : Operation} (hk : kind.Unbroken)
    (h : o.Unbroken) : BrilIR.Unbroken (kind.headText o) := by
  have hname : BrilIR.Unbroken (Operation.displayName o.name) := by
    simp +decide [Operation.displayName, h.name]
  have hoperands := Value.unbroken_usesText h.operands
  have hattributes := Attributes.unbroken_text h.attributes
  cases kind with
  | moduleOp => exact (by decide : BrilIR.Unbroken "module")
  | funcOp style signature =>
    have hidentifier : BrilIR.Unbroken (signature.identifier.getD "") := by
      cases e : signature.identifier with
      | none => decide
      | some s => exact hk s e
    have harguments := Value.unbroken_listText h.arguments
    simp +decide [headText, Operation.funcText, hname, hidentifier, harguments, hattributes]
  | returnOp => simp +decide [headText, Operation.returnText, hname, hoperands]
  | instr i =>
    have hresults := Value.unbroken_listText h.results
    have hsuccessors : BrilIR.Unbroken (", ".intercalate o.successors) := by
      simpa using unbroken_list (f := id) h.successors
    simp +decide [headText, Operation.genericText, hname, hoperands, hattributes, hresults,
      hsuccessors]

mutual

/-- No name, label or text in the tree has a line end. -/
def Op.Unbroken : Op → Prop
  | .mk kind o none => kind.Unbroken ∧ o.Unbroken
  | .mk kind o (some r) => kind.Unbroken ∧ o.Unbroken ∧ Region.Unbroken r

def Region.Unbroken : List Block → Prop
  | [] => True
  | .mk label ops :: r =>
    (∀ s ∈ label, BrilIR.Unbroken s) ∧ Block.Unbroken ops ∧ Region.Unbroken r

def Block.Unbroken : List Op → Prop
  | [] => True
  | op :: ops => op.Unbroken ∧ Block.Unbroken ops

end

end BrilIR
