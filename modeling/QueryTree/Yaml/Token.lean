/-
Tokens of YAML texts.
-/

namespace QueryTree.Yaml

inductive Token
  | documentStart
  | documentEnd
  /-- The start of a list of lines with dashes. -/
  | listStart
  /-- The start of a map of lines with colons. -/
  | mapStart
  /-- The end of the innermost list or map of lines. -/
  | blockEnd
  | flowListStart
  | flowListEnd
  | flowMapStart
  | flowMapEnd
  | comma
  /-- A dash: an item comes next. -/
  | item
  /-- A key comes next. -/
  | key
  /-- A colon: a value comes next. -/
  | value
  /-- A scalar and whether it stands without quotes. -/
  | scalar (plain : Bool) (text : String)
deriving DecidableEq

end QueryTree.Yaml
