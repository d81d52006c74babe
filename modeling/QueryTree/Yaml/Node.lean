/-
Nodes of YAML documents, and how tokens make them.
-/
import QueryTree.Yaml.Token

namespace QueryTree

inductive Yaml
  /-- A scalar and whether it stands without quotes. -/
  | scalar (plain : Bool) (text : String)
  | list (items : List Yaml)
  | map (entries : List (Yaml × Yaml))

namespace Yaml

/-- A missing node. -/
def empty : Yaml := scalar true ""

/-- Tokens before which a key or value of a map of lines is missing. -/
def blockStops : List Token := [.key, .value, .blockEnd]

mutual

/-- The next node. Where `loose` allows it, a list of lines needs no deeper column than the map
around it. -/
def node : Nat → Bool → List Token → Option (Yaml × List Token)
  | 0, _, _ => none
  | fuel + 1, loose, ts =>
    match ts with
    | .scalar plain text :: ts => some (scalar plain text, ts)
    | .flowListStart :: ts => (flowItems fuel ts).map fun (items, ts) => (list items, ts)
    | .flowMapStart :: ts => (flowEntries fuel ts).map fun (entries, ts) => (map entries, ts)
    | .listStart :: ts => (items fuel ts).map fun (items, ts) => (list items, ts)
    | .mapStart :: ts => (entries fuel ts).map fun (entries, ts) => (map entries, ts)
    | .item :: _ =>
      if loose then (looseItems fuel ts).map fun (items, ts) => (list items, ts) else none
    | _ => none

/-- The next node, or a missing one before a token in `stops`. -/
def nodeBefore : Nat → List Token → Bool → List Token → Option (Yaml × List Token)
  | 0, _, _, _ => none
  | fuel + 1, stops, loose, ts =>
    if ts.head?.any stops.contains then some (empty, ts) else node fuel loose ts

/-- The node after a colon, or a missing one. -/
def valueBefore : Nat → List Token → Bool → List Token → Option (Yaml × List Token)
  | 0, _, _, _ => none
  | fuel + 1, stops, loose, ts =>
    match ts with
    | .value :: ts => nodeBefore fuel stops loose ts
    | _ => some (empty, ts)

/-- The rest of a list of lines. -/
def items : Nat → List Token → Option (List Yaml × List Token)
  | 0, _ => none
  | fuel + 1, ts =>
    match ts with
    | .blockEnd :: ts => some ([], ts)
    | .item :: ts => do
      let (item, ts) ← nodeBefore fuel [.item, .blockEnd] false ts
      let (items, ts) ← items fuel ts
      return (item :: items, ts)
    | _ => none

/-- The items of a list in the column of the map around it. Any other token ends it. -/
def looseItems : Nat → List Token → Option (List Yaml × List Token)
  | 0, _ => none
  | fuel + 1, ts =>
    match ts with
    | .item :: ts => do
      let (item, ts) ← nodeBefore fuel (.item :: blockStops) false ts
      let (items, ts) ← looseItems fuel ts
      return (item :: items, ts)
    | _ => some ([], ts)

/-- The rest of a map of lines. -/
def entries : Nat → List Token → Option (List (Yaml × Yaml) × List Token)
  | 0, _ => none
  | fuel + 1, ts =>
    match ts with
    | .blockEnd :: ts => some ([], ts)
    | .key :: ts => do
      let (key, ts) ← nodeBefore fuel blockStops true ts
      let (value, ts) ← valueBefore fuel blockStops true ts
      let (entries, ts) ← entries fuel ts
      return ((key, value) :: entries, ts)
    | _ => none

/-- An item of a list in brackets. A key makes a map of one entry, and if nothing stands between it
and the next mark, that mark is lost. -/
def flowItem : Nat → List Token → Option (Yaml × List Token)
  | 0, _ => none
  | fuel + 1, ts =>
    match ts with
    | .key :: ts => do
      let lost := ts.head?.any [Token.value, .comma, .flowListEnd].contains
      let (key, ts) ← if lost then some (empty, ts.tail) else node fuel false ts
      let (value, ts) ← valueBefore fuel [.comma, .flowListEnd] false ts
      return (map [(key, value)], ts)
    | _ => node fuel false ts

/-- The rest of a list in brackets, from where an item may start. -/
def flowItems : Nat → List Token → Option (List Yaml × List Token)
  | 0, _ => none
  | fuel + 1, ts =>
    match ts with
    | .flowListEnd :: ts => some ([], ts)
    | _ => do
      let (item, ts) ← flowItem fuel ts
      match ts with
      | .flowListEnd :: ts => return ([item], ts)
      | .comma :: ts =>
        let (items, ts) ← flowItems fuel ts
        return (item :: items, ts)
      | _ => none

/-- An entry of a map in braces. What is no key has no value. -/
def flowEntry : Nat → List Token → Option ((Yaml × Yaml) × List Token)
  | 0, _ => none
  | fuel + 1, ts =>
    match ts with
    | .key :: ts => do
      let (key, ts) ← nodeBefore fuel [.value, .comma, .flowMapEnd] false ts
      let (value, ts) ← valueBefore fuel [.comma, .flowMapEnd] false ts
      return ((key, value), ts)
    | _ => (node fuel false ts).map fun (key, ts) => ((key, empty), ts)

/-- The rest of a map in braces, from where an entry may start. -/
def flowEntries : Nat → List Token → Option (List (Yaml × Yaml) × List Token)
  | 0, _ => none
  | fuel + 1, ts =>
    match ts with
    | .flowMapEnd :: ts => some ([], ts)
    | _ => do
      let (entry, ts) ← flowEntry fuel ts
      match ts with
      | .flowMapEnd :: ts => return ([entry], ts)
      | .comma :: ts =>
        let (entries, ts) ← flowEntries fuel ts
        return (entry :: entries, ts)
      | _ => none

end

/-- The node of the only document that tokens make, if there is just one. -/
def ofTokens? (ts : List Token) : Option Yaml :=
  -- No more than four steps go by from one token to the next.
  let fuel := 4 * ts.length + 8
  let made := match ts with
    | [] => some (empty, [])
    | .documentStart :: below =>
      if below.head?.all [Token.documentStart, .documentEnd].contains then some (empty, below)
      else node fuel false below
    | _ => node fuel false ts
  match made with
  | some (y, rest) => if rest.all (· == .documentEnd) then some y else none
  | none => none

end Yaml

end QueryTree
