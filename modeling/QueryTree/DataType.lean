/-
Static types of values: a storage class and whether NULL is allowed.
-/

namespace QueryTree

/-- The storage class of a value. `row` is a whole row, as `t.*` stands for one. -/
inductive Kind
  | boolean | int16 | int32 | int64 | decimal | double | text | timestamp | uuid | binary | row
  deriving DecidableEq, Repr

namespace Kind

def isNumber : Kind → Bool
  | int16 | int32 | int64 | decimal | double => true
  | boolean | text | timestamp | uuid | binary | row => false

def toText : Kind → String
  | boolean => "boolean"
  | int16 => "int16"
  | int32 => "int32"
  | int64 => "int64"
  | decimal => "decimal"
  | double => "double"
  | text => "text"
  | timestamp => "timestamp"
  | uuid => "uuid"
  | binary => "binary"
  | row => "row"

end Kind

structure DataType where
  kind : Kind
  nullable : Bool := false
  deriving DecidableEq, Repr

namespace DataType

def boolean : DataType := ⟨.boolean, false⟩
def int32 : DataType := ⟨.int32, false⟩
def int64 : DataType := ⟨.int64, false⟩
def text : DataType := ⟨.text, false⟩
def row : DataType := ⟨.row, false⟩

/-- The same storage class with NULL allowed or not. -/
def setNullable (nullable : Bool) (t : DataType) : DataType := { t with nullable }

def isNumber (t : DataType) : Bool := t.kind.isNumber

/-- A nullable type is marked by a question mark. -/
def toText (t : DataType) : String := t.kind.toText ++ if t.nullable then "?" else ""

end DataType

end QueryTree
