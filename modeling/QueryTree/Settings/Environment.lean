/-
Settings from environment variables.
-/
import QueryTree.Settings

namespace QueryTree.Settings

/-! ## Numbers -/

inductive NumberFault
  | empty | invalidDigit | tooLarge
  deriving DecidableEq, Repr

def NumberFault.text : NumberFault → String
  | empty => "cannot parse integer from empty string"
  | invalidDigit => "invalid digit found in string"
  | tooLarge => "number too large to fit in target type"

/-- Reads decimal digits on top of `n`. The first fault counts: a character that is no digit, or a
digit that takes the number to `UInt64.size`. -/
def readDigits (n : Nat) : List Char → Except NumberFault Nat
  | [] => .ok n
  | c :: cs =>
    if !c.isDigit then .error .invalidDigit
    else
      let n := 10 * n + (c.toNat - '0'.toNat)
      if n < UInt64.size then readDigits n cs else .error .tooLarge

/-- A natural number below `UInt64.size` in decimal digits, with a plus sign or without. -/
def readNumber (text : String) : Except NumberFault Nat :=
  match text.toList with
  | [] => .error .empty
  | '+' :: c :: cs => readDigits 0 (c :: cs)
  | cs => readDigits 0 cs

/-! ## Variables -/

/-- The text of a variable. One that is not UTF-8 counts as not set. -/
def envText? (environment : String → Option ByteArray) (name : String) : Option String :=
  environment name >>= String.fromUTF8?

/-- The settings that environment variables give. Variables that are not set give defaults. -/
def ofEnvironment (environment : String → Option ByteArray) : Except Failure Settings := do
  let text := envText? environment
  let absent : Settings := {}
  let input := "SELECT_IR_STAR_INDEX_THRESHOLD"
  let threshold ← match text input with
    | none => pure absent.indexThreshold
    | some value =>
      match readNumber value with
      | .ok n => pure n
      | .error fault => throw (.unreadable input value fault.text)
  checked {
    subqueryStem := (text "SELECT_IR_SUBQUERY_ALIAS_PREFIX").getD absent.subqueryStem
    rowNumberName := (text "SELECT_IR_ROW_NUMBER_COLUMN").getD absent.rowNumberName
    indexThreshold := threshold }

end QueryTree.Settings
