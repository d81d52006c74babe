/-
Names made from a stem: the stem itself while it is free, then the stem with a number after it.
-/
import QueryTree.Text.Lowercase

namespace QueryTree.Name

/-- The stem with a number after it. -/
def numbered (stem : String) (n : Nat) : String := stem ++ toString n

/-- Two names that differ at most in case. -/
def clash (a b : String) : Bool := Text.lowercase a == Text.lowercase b

/-- The first of `numbered stem start`, `numbered stem (start + 1)`, … that is not blocked. Of these
at most `count` are blocked, so the search never has to look further than that. -/
def firstNumber (blocked : String → Bool) (count : Nat) (stem : String) (start : Nat) : Nat :=
  ((List.range' start count).find? fun n => !blocked (numbered stem n)).getD (start + count)

/-- The first free name for `stem`, with the number to go on from. A name is free if it is the same
as none of the taken ones. -/
def firstFree (same : String → String → Bool) (taken : List String) (stem : String)
    (start : Nat) : String × Nat :=
  let blocked := fun name => taken.any (same · name)
  if blocked stem then
    let n := firstNumber blocked taken.length stem start
    (numbered stem n, n + 1)
  else (stem, start)

end QueryTree.Name
