/-
JSON values and the shapes that records and variants take in them.
-/
import QueryTree.Literal

namespace QueryTree

/-- A JSON value. Numbers are integers or floating-point values. -/
inductive Json
  | null
  | bool (value : Bool)
  | int (value : Int)
  | float (value : Double)
  | text (value : String)
  | list (items : List Json)
  | object (fields : List (String × Json))

namespace Json

instance : Inhabited Json := ⟨null⟩

/-! ## Nesting -/

mutual

/-- How deep values are nested. -/
def depth : Json → Nat
  | list items => itemsDepth items + 1
  | object fields => fieldsDepth fields + 1
  | _ => 0

def itemsDepth : List Json → Nat
  | [] => 0
  | j :: js => max j.depth (itemsDepth js)

def fieldsDepth : List (String × Json) → Nat
  | [] => 0
  | (_, j) :: fs => max j.depth (fieldsDepth fs)

end

/-! ## Single values -/

def bool? : Json → Option Bool
  | bool b => some b
  | _ => none

def text? : Json → Option String
  | text s => some s
  | _ => none

/-- An integer from `low` to `high`. -/
def int? (low high : Int) : Json → Option Int
  | int n => if low ≤ n && n ≤ high then some n else none
  | _ => none

/-- A number; an integer stands for the nearest floating-point value. -/
def double? : Json → Option Double
  | float x => some x
  | int n => some (.ofInt n)
  | _ => none

def list? : Json → Option (List Json)
  | list items => some items
  | _ => none

def object? : Json → Option (List (String × Json))
  | object fields => some fields
  | _ => none

/-- A value read by `read`, or null for none. -/
def optional? {α : Type} (read : Json → Option α) : Json → Option (Option α)
  | null => some none
  | j => (read j).map some

/-! ## Records and variants -/

/-- The fields of a record by name, null for one that is absent. A record is an object, in which
further fields do not matter, or the list of all its fields in order. -/
def record? (names : List String) : Json → Option (String → Json)
  | object fields => some fun name => (fields.lookup name).getD null
  | list items =>
    if items.length = names.length then
      some fun name => ((names.zip items).lookup name).getD null
    else none
  | _ => none

/-- The name of a variant with its content: a text for a variant without content, else an object
with one field. -/
def variant? : Json → Option (String × Option Json)
  | text name => some (name, none)
  | object [(name, content)] => some (name, some content)
  | _ => none

/-- One of the given values by its name, which may also stand as a variant with content null. -/
def choice? {α : Type} (values : List α) (name : α → String) (j : Json) : Option α :=
  match j.variant? with
  | some (tag, none) | some (tag, some null) => values.find? (name · == tag)
  | _ => none

end Json

end QueryTree
