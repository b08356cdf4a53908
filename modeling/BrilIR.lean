import BrilIR.Draft
import BrilIR.Main
import BrilIR.Proofs.Attribute.Dictionary
import BrilIR.Proofs.Attribute.Integer
import BrilIR.Proofs.Diagnostic.Rendering
import BrilIR.Proofs.Lexical.Machine
import BrilIR.Proofs.Lexical.Offset
import BrilIR.Proofs.Lexical.Tokenization
import BrilIR.Proofs.Parser.Cursor
import BrilIR.Proofs.Parser.Ending
import BrilIR.Proofs.Parser.Frame
import BrilIR.Proofs.Parser.Lookahead
import BrilIR.Proofs.Parser.Placement
import BrilIR.Proofs.Parser.Progress
import BrilIR.Proofs.Printing.Indentation
import BrilIR.Proofs.Printing.Survival
import BrilIR.Proofs.Source.Acceptance
import BrilIR.Proofs.Source.Ending
import BrilIR.Proofs.Source.FixedPoint
import BrilIR.Proofs.Source.Layout
import BrilIR.Proofs.Source.Limit
import BrilIR.Proofs.Source.Ordering
import BrilIR.Proofs.Source.Pointing
import BrilIR.Proofs.Source.Rejection
import BrilIR.Proofs.Source.Scoping
import BrilIR.Proofs.Source.Successors
import BrilIR.Proofs.Text.Containment
import BrilIR.Proofs.Ty.Instance
import BrilIR.Proofs.Ty.Text
import BrilIR.Proofs.Verify.Charging
import BrilIR.Proofs.Verify.Composition
import BrilIR.Proofs.Verify.Counting
import BrilIR.Proofs.Verify.Outcome
import BrilIR.Proofs.Verify.Returning
import BrilIR.Proofs.Verify.Sound
import BrilIR.Proofs.Verify.Transfer
import BrilIR.Text.Comparison
import BrilIR.Ty.Interner
