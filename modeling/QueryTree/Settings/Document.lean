/-
Settings from YAML documents.
-/
import QueryTree.Settings
import QueryTree.Text.Digits
import QueryTree.Yaml

namespace QueryTree.Settings

/-! ## Numbers -/

/-- A natural number below `UInt64.size` as a plain scalar gives it: decimal without leading zeros, or
marked as hexadecimal, octal or binary. -/
def plainNumber? (text : String) : Option Nat :=
  let cs := match text.toList with
    | '+' :: cs => cs
    | cs => cs
  let number := match cs with
    | '0' :: 'x' :: rest => Text.digits? 16 rest
    | '0' :: 'o' :: rest => Text.digits? 8 rest
    | '0' :: 'b' :: rest => Text.digits? 2 rest
    | '0' :: _ :: _ => none
    | cs => Text.digits? 10 cs
  number.filter (· < UInt64.size)

/-! ## Documents -/

/-- The field that a key names. -/
def Field.ofKey? (key : String) : Option Field :=
  match key with
  | "subquery_alias_prefix" => some .subqueryStem
  | "row_number_column" => some .rowNumberName
  | "star_index_threshold" => some .indexThreshold
  | _ => none

/-- The settings with one field as a node gives it. -/
def withNode (c : Settings) : Field → Yaml → Option Settings
  | .subqueryStem, .scalar _ text => some { c with subqueryStem := text }
  | .rowNumberName, .scalar _ text => some { c with rowNumberName := text }
  | .indexThreshold, .scalar true text =>
    (plainNumber? text).map fun n => { c with indexThreshold := n }
  | _, _ => none

/-- Reads the entries of a mapping, in which no field may occur twice. Other keys do not matter. -/
def readEntries (c : Settings) (seen : List Field) : List (Yaml × Yaml) → Option Settings
  | [] => some c
  | (.scalar _ key, value) :: rest =>
    match Field.ofKey? key with
    | none => readEntries c seen rest
    | some field =>
      if seen.contains field then none
      else match c.withNode field value with
        | some c => readEntries c (field :: seen) rest
        | none => none
  | _ :: _ => none

/-- The settings in a YAML document: a mapping, or nothing at all. Fields that are not
mentioned have their defaults. -/
def ofYaml (document : String) : Except Failure Settings :=
  let read := match Yaml.parse? document with
    | some (.map entries) => readEntries {} [] entries
    | some (.scalar true "") => some {}
    | _ => none
  match read with
  | some c => c.checked
  | none => .error .document

/-- The settings in a YAML file with the given bytes, or without them if there is no file. -/
def ofYamlFile (bytes : Option ByteArray) : Except Failure Settings :=
  let unreadable := Failure.unreadable "yaml_file" "file read failed"
  match bytes with
  | none => .error (unreadable "No such file or directory (os error 2)")
  | some bytes =>
    match String.fromUTF8? bytes with
    | none => .error (unreadable "stream did not contain valid UTF-8")
    | some document => ofYaml document

end QueryTree.Settings
