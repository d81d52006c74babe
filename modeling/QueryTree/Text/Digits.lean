/-
Numbers in digits of any base up to thirty-six.
-/

namespace QueryTree.Text

/-- The number that digits of the given base make, if there are digits and nothing else. -/
def digits? (base : Nat) (cs : List Char) : Option Nat :=
  let value (c : Char) : Nat :=
    if c.isDigit then c.toNat - '0'.toNat
    else if 'a' ≤ c.toLower && c.toLower ≤ 'z' then c.toLower.toNat - 'a'.toNat + 10
    else base
  if cs.isEmpty || cs.any (base ≤ value ·) then none
  else some (cs.foldl (fun n c => base * n + value c) 0)

end QueryTree.Text
