/-
Scalars: quoted ones, with their escapes, and plain ones. White space with a line break in it is
folded in both.
-/
import QueryTree.Text.Digits
import QueryTree.Yaml.Cursor

namespace QueryTree.Yaml

/-- What white space within a scalar stands for: itself if it has no break, else its breaks without
a line feed in front, or a space if that is the only one. -/
def folded (gap : List Char) : List Char :=
  match gap.filter isBreak with
  | [] => gap
  | ['\n'] => [' ']
  | '\n' :: more => more
  | breaks => breaks

/-! ## Quoted scalars -/

/-- The character that an escape stands for, and the length of the escape after its backslash. -/
def escape : List Char → Option (Char × Nat)
  | '0' :: _ => some ('\x00', 1)
  | 'a' :: _ => some ('\x07', 1)
  | 'b' :: _ => some ('\x08', 1)
  | 't' :: _ | '\t' :: _ => some ('\t', 1)
  | 'n' :: _ => some ('\n', 1)
  | 'v' :: _ => some ('\x0b', 1)
  | 'f' :: _ => some ('\x0c', 1)
  | 'r' :: _ => some ('\r', 1)
  | 'e' :: _ => some ('\x1b', 1)
  | ' ' :: _ => some (' ', 1)
  | '\x22' :: _ => some ('\x22', 1)
  | '/' :: _ => some ('/', 1)
  | '\\' :: _ => some ('\\', 1)
  | 'N' :: _ => some ('\u0085', 1)
  | '_' :: _ => some ('\u00a0', 1)
  | 'L' :: _ => some ('\u2028', 1)
  | 'P' :: _ => some ('\u2029', 1)
  | 'x' :: cs => number 2 cs
  | 'u' :: cs => number 4 cs
  | 'U' :: cs => number 8 cs
  | _ => none
where
  /-- The character with the number that the next `count` hexadecimal digits give. -/
  number (count : Nat) (cs : List Char) : Option (Char × Nat) :=
    match Text.digits? 16 (cs.take count) with
    | some n =>
      if count ≤ cs.length && n.isValidChar then some (Char.ofNat n, count + 1) else none
    | none => none

/-- The text up to the closing quote. A line in it must not open or close a document. -/
def quotedText (quote : Char) : Nat → Cursor → Read (List Char)
  | 0, _ => none
  | fuel + 1, p =>
    match p.rest with
    | [] => none
    | c :: cs =>
      if p.atMarker then none
      else if c == quote then
        if quote == '\x27' && cs.head? == some quote then
          put [quote] (quotedText quote fuel (p.skip 2))
        else some ([], p.next)
      else if isGap c then
        let gap := p.rest.takeWhile isGap
        put (folded gap) (quotedText quote fuel (p.skip gap.length))
      else if c == '\\' && quote == '\x22' then
        if cs.head?.any isBreak then
          let gap := cs.tail.takeWhile isGap
          put (gap.filter isBreak) (quotedText quote fuel (p.skip (gap.length + 2)))
        else match escape cs with
          | some (escaped, length) => put [escaped] (quotedText quote fuel (p.skip (length + 1)))
          | none => none
      else put [c] (quotedText quote fuel p.next)
where
  put (front : List Char) : Read (List Char) → Read (List Char)
    | some (text, p) => some (front ++ text, p)
    | none => none

/-- The text of a scalar that starts with a quote here. -/
def quoted (quote : Char) (p : Cursor) : Read String :=
  match quotedText quote p.rest.length p.next with
  | some (text, p) => some (String.ofList text, p)
  | none => none

/-! ## Plain scalars -/

/-- The characters up to white space or to a mark that ends a plain scalar. A colon right before a
mark of flow collections is refused within these. -/
def plainWord (flow : Bool) : List Char → Option (List Char)
  | [] => some []
  | c :: cs =>
    if isGap c || (flow && isFlowMark c) || (c == ':' && cs.head?.all isGap) then some []
    else if flow && c == ':' && cs.head?.any (fun d => isFlowMark d || d == '?') then none
    else (plainWord flow cs).map (c :: ·)

/-- White space with a tab among the first `indent` columns of a line, from `column` on. Before the
first break there are no columns. -/
def indentsByTab (indent : Nat) : Option Nat → List Char → Bool
  | _, [] => false
  | column, c :: cs =>
    if isBreak c then indentsByTab indent (some 0) cs
    else (c == '\t' && column.any (· < indent)) || indentsByTab indent (column.map (· + 1)) cs

/-- The words of a plain scalar. Outside of flow collections further lines of it are indented by
`indent` at least. -/
def plainText (flow : Bool) (indent : Nat) : Nat → Cursor → Read (List Char)
  | 0, _ => none
  | fuel + 1, p =>
    match plainWord flow p.rest with
    | none => none
    | some word =>
      let wordEnd := p.skip word.length
      let gap := wordEnd.rest.takeWhile isGap
      let next := wordEnd.skip gap.length
      if indentsByTab indent none gap then none
      else if gap.isEmpty || (!flow && next.column < indent) || next.atMarker
          || next.rest.head? == some '#' || plainWord flow next.rest == some [] then
        some (word, wordEnd)
      else match plainText flow indent fuel next with
        | some (text, p) => some (word ++ folded gap ++ text, p)
        | none => none

/-- The text of a plain scalar that starts here. -/
def plain (flow : Bool) (indent : Nat) (p : Cursor) : Read String :=
  match plainText flow indent p.rest.length p with
  | some (text, p) => some (String.ofList text, p)
  | none => none

end QueryTree.Yaml
