/-
What a target engine can do, as far as it shapes the tree.
-/

namespace QueryTree

structure Dialect where
  name : String
  /-- `OFFSET n` can be written. -/
  hasOffset : Bool := true
  /-- `ROW_NUMBER() OVER (…)` can be written. -/
  hasWindows : Bool := true
  deriving DecidableEq, Repr

namespace Dialect

def standard : Dialect := { name := "standard" }

/-- An engine that pages by row numbers only. -/
def withoutOffset : Dialect := { name := "legacy_row_number", hasOffset := false }

/-- The dialect of a name, in which the case of ASCII letters does not matter. -/
def named? (name : String) : Option Dialect :=
  [standard, withoutOffset].find? fun d => d.name.toList == name.toList.map Char.toLower

end Dialect

end QueryTree
