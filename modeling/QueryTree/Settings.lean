/-
Names and sizes that a compilation can choose, and which choices are valid.
-/

namespace QueryTree

structure Settings where
  /-- What the names of pushed-down queries are made from. -/
  subqueryStem : String := "t"
  /-- The name of the first injected row-number column. -/
  rowNumberName : String := "__RowNumber__"
  /-- How many columns a wildcard memo holds before it is indexed. -/
  indexThreshold : Nat := 32
  deriving DecidableEq, Repr

namespace Settings

inductive Field
  | subqueryStem | rowNumberName | indexThreshold
  deriving DecidableEq, Repr

inductive Violation
  | length | range
  deriving DecidableEq, Repr

/-- What is required of a field. -/
def Field.requirement : Field → Violation × String
  | subqueryStem => (.length, "Subquery alias prefix cannot be empty")
  | rowNumberName => (.length, "Row number column cannot be empty")
  | indexThreshold => (.range, "Star index threshold must be between 1 and 4096")

/-- The field meets its requirement. -/
def Field.isValid (c : Settings) : Field → Bool
  | subqueryStem => !c.subqueryStem.isEmpty
  | rowNumberName => !c.rowNumberName.isEmpty
  | indexThreshold => 1 ≤ c.indexThreshold && c.indexThreshold ≤ 4096

/-- The fields that do not meet their requirement. -/
def invalidFields (c : Settings) : List Field :=
  [.subqueryStem, .rowNumberName, .indexThreshold].filter (!Field.isValid c ·)

/-- Why no settings come out of a source. -/
inductive Failure
  /-- A document that is not of the expected form. -/
  | document
  /-- The value of a named input that cannot be read, with the reason. -/
  | unreadable (input : String) (value : String) (reason : String)
  | invalid (fields : List Field)
  deriving DecidableEq, Repr

/-- The text of a value that cannot be read. -/
def Failure.unreadableText (input value reason : String) : String :=
  "Parse error for " ++ input ++ ": " ++ value ++ " - " ++ reason

def checked (c : Settings) : Except Failure Settings :=
  match c.invalidFields with
  | [] => .ok c
  | fields => .error (.invalid fields)

end Settings

end QueryTree
