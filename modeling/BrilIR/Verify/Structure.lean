import BrilIR.Diagnostic.Basic

/-! The rules that hold for ops of every kind: counts, attributes, and the place of terminators. -/

namespace BrilIR

namespace OpKind

def countFindings (o : Operation) (a : Arity) (what : String) (found : Nat) : List Diagnostic :=
  match a.complaint? what found with
  | none => []
  | some message => [.ofOperation o .counts message]

def attributeFindings (o : Operation) (key : String) : List Diagnostic :=
  if o.attributes.contains key then []
  else [.ofOperation o .missingAttribute ("requires attribute '" ++ key ++ "'")]

def structureFindings (kind : OpKind) (o : Operation) : List Diagnostic :=
  countFindings o kind.shape.operands "operands" o.operands.length ++
    countFindings o kind.shape.results "results" o.results.length ++
    countFindings o kind.shape.successors "successors" o.successors.length ++
    kind.required.flatMap (attributeFindings o)

def Structured (kind : OpKind) (o : Operation) : Prop :=
  kind.shape.operands.Fits o.operands.length ∧ kind.shape.results.Fits o.results.length ∧
    kind.shape.successors.Fits o.successors.length ∧
    ∀ key ∈ kind.required, o.attributes.contains key = true

theorem countFindings_eq_nil_iff {o : Operation} {a : Arity} {what : String} {found : Nat} :
    countFindings o a what found = [] ↔ a.Fits found := by
  rw [← a.complaint?_eq_none_iff what found]
  cases h : a.complaint? what found <;> simp [countFindings, h]

theorem structureFindings_eq_nil_iff {kind : OpKind} {o : Operation} :
    kind.structureFindings o = [] ↔ kind.Structured o := by
  simp [structureFindings, Structured, countFindings_eq_nil_iff, attributeFindings]

end OpKind

/-- What is wrong with the terminators of a block: only its last op may be one. -/
def Block.terminatorFindings (ops : List Op) : List Diagnostic :=
  (ops.dropLast.filter (·.kind.isTerminator)).map fun op =>
    .ofOperation op.operation .counts "must be the last operation in the parent block"

end BrilIR
