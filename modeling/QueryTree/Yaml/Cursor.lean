/-
Characters of YAML texts, and places in a text with their line and column.
-/

namespace QueryTree.Yaml

/-! ## Characters -/

def isBlank (c : Char) : Bool := c == ' ' || c == '\t'

def isBreak (c : Char) : Bool := c == '\n' || c == '\u2028' || c == '\u2029'

/-- White space. -/
def isGap (c : Char) : Bool := isBlank c || isBreak c

def isFlowMark (c : Char) : Bool := c == ',' || c == '[' || c == ']' || c == '{' || c == '}'

/-- Characters that a text may hold. -/
def isPrintable (c : Char) : Bool :=
  let n := c.toNat
  n == 0x9 || n == 0xA || n == 0xD || (0x20 ≤ n && n ≤ 0x7E) || n == 0x85
    || (0xA0 ≤ n && n ≤ 0xFFFD) || 0x10000 ≤ n

/-- All line breaks as line feeds, but for line and paragraph separators, which stay what they
are. -/
def unifyBreaks : List Char → List Char
  | '\r' :: '\n' :: cs => '\n' :: unifyBreaks cs
  | '\r' :: cs | '\u0085' :: cs => '\n' :: unifyBreaks cs
  | c :: cs => c :: unifyBreaks cs
  | [] => []

/-! ## Places -/

/-- A place in a text: the characters after it, its line and its column, both from zero. -/
structure Cursor where
  rest : List Char
  line : Nat
  column : Nat
  /-- The column in bytes of UTF-8. -/
  byteColumn : Nat

namespace Cursor

def start (cs : List Char) : Cursor := ⟨cs, 0, 0, 0⟩

/-- The place after the next character. -/
def next (p : Cursor) : Cursor :=
  match p.rest with
  | [] => p
  | c :: rest =>
    if isBreak c then ⟨rest, p.line + 1, 0, 0⟩
    else ⟨rest, p.line, p.column + 1, p.byteColumn + c.utf8Size⟩

/-- The place after the next `n` characters. -/
def skip (p : Cursor) : Nat → Cursor
  | 0 => p
  | n + 1 => p.next.skip n

def skipWhile (p : Cursor) (test : Char → Bool) : Cursor := p.skip (p.rest.takeWhile test).length

/-- The next `n` characters have white space after them, or nothing. -/
def isParted (p : Cursor) (n : Nat) : Bool := (p.rest.drop n).head?.all isGap

/-- A line that opens or closes a document. -/
def atMarker (p : Cursor) : Bool :=
  p.column == 0 && p.isParted 3
    && (p.rest.take 3 == ['-', '-', '-'] || p.rest.take 3 == ['.', '.', '.'])

end Cursor

/-- What is read, and the place after it. -/
abbrev Read (α : Type) := Option (α × Cursor)

end QueryTree.Yaml
