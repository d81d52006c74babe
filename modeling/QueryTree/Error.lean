/-
Why an operation on a query tree fails. None of these stands for bad data: each says that the
caller asked for something that the tree cannot represent.
-/
import QueryTree.Tree

namespace QueryTree

inductive Error
  | emptyStem
  | emptyColumnName
  /-- No table of the query satisfies the source. -/
  | unknownSource (source : Source)
  /-- The property is mapped to no column. -/
  | propertyWithoutColumn (property : String) (source : Source)
  /-- An expression, given as text, that has no name outside its query. -/
  | unliftable (query : String) (expr : String)
  | unnamedQuery
  /-- A wildcard over none or over several of the `tables` tables. -/
  | wildcardUnresolved (tables : Nat)
  | wildcardTableMissing (name : String)
  /-- The query has `tables` tables instead of one nested query. -/
  | notOneNested (tables : Nat)
  deriving DecidableEq

def Error.message : Error → String
  | emptyStem => "Alias prefix must not be empty."
  | emptyColumnName => "Required column name must not be empty."
  | unknownSource s => "No table in the query satisfies query source " ++ s.toText ++ "."
  | propertyWithoutColumn p s =>
    "Property '" ++ p ++ "' has no column mapping for query source " ++ s.toText ++ "."
  | unliftable q e => "Cannot lift expression out of subquery '" ++ q ++ "': " ++ e
  | unnamedQuery => "Nested query has no alias."
  | wildcardUnresolved n =>
    "Star projection needs exactly one table to resolve against, found " ++ toString n ++ "."
  | wildcardTableMissing name => "Star table '" ++ name ++ "' is not part of the query."
  | notOneNested n => "Expected a single nested table but found " ++ toString n ++ " table(s)."

end QueryTree
