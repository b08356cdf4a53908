/-! Sets of code points given by closed ranges. -/

namespace BrilIR.Unicode

abbrev Ranges := List (Nat × Nat)

def Ranges.contains (ranges : Ranges) (n : Nat) : Bool :=
  ranges.any fun r => r.1 ≤ n && n ≤ r.2

end BrilIR.Unicode
