/-
The lower-case form of a text. Each character has a form of its own, two aside: a dotted capital I
becomes an i and a combining dot, and a capital sigma that ends a word becomes a final sigma.
-/
import QueryTree.Text.CaseTable

namespace QueryTree.Text

def isCased (c : Char) : Bool := casedSpans.any (·.holds c.toNat)

def isCaseIgnorable (c : Char) : Bool := caseIgnorableSpans.any (·.holds c.toNat)

/-- The first character of `cs` that is not passed over has a case. -/
def casedNext (cs : List Char) : Bool :=
  match cs.dropWhile isCaseIgnorable with
  | [] => false
  | c :: _ => isCased c

/-- The lower-case form of a character on its own. -/
def lowerChar (c : Char) : Char :=
  if c.toNat < 0x80 then c.toLower
  else match lowerShifts.find? (·.holds c.toNat) with
    | some s => Char.ofNat (c.toNat + s.distance).toNat
    | none => c

/-- The lower-case form of `c`, which stands after `before` (nearest first) and ahead of `after`. -/
def lowerInContext (before : List Char) (c : Char) (after : List Char) : List Char :=
  if c = 'İ' then ['i', '\u0307']
  else if c = 'Σ' then [if casedNext before && !casedNext after then 'ς' else 'σ']
  else [lowerChar c]

/-- The lower-case form of `cs`, which stands after `before` (nearest first). -/
def lowerFrom (before : List Char) : List Char → List Char
  | [] => []
  | c :: cs => lowerInContext before c cs ++ lowerFrom (c :: before) cs

def lowercase (s : String) : String := String.ofList (lowerFrom [] s.toList)

end QueryTree.Text
