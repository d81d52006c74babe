/-
What all queries of one compilation share: its settings and the names taken so far. No name is
taken twice, nor one that the caller has reserved.
-/
import QueryTree.Assoc
import QueryTree.Settings
import QueryTree.Error
import QueryTree.Name

namespace QueryTree

structure Session where
  settings : Settings := {}
  /-- The names taken or reserved. -/
  taken : List String := []
  /-- The number to try next after each stem. -/
  numbers : List (String × Nat) := []

namespace Session

def isTaken (name : String) (s : Session) : Bool := s.taken.contains name

/-- Keeps a name of the caller's choice from being taken. -/
def reserve (name : String) (s : Session) : Session :=
  if s.isTaken name then s else { s with taken := s.taken ++ [name] }

/-- Takes the first free name for a stem. -/
def createName (stem : String) : EStateM Error Session String := do
  if stem.isEmpty then
    throw .emptyStem
  let s ← get
  let start := (s.numbers.lookup stem).getD 0
  let (name, next) := Name.firstFree (· == ·) s.taken stem start
  set { s with taken := s.taken ++ [name], numbers := Assoc.put stem next s.numbers }
  return name

/-- Takes a name for a pushed-down query. -/
def createSubqueryName : EStateM Error Session String := do
  createName (← get).settings.subqueryStem

/-- An empty query under a fresh name. -/
def freshQuery : EStateM Error Session Query := do
  return { name := some (← createSubqueryName) }

end Session

end QueryTree
