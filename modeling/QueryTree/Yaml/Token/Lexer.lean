/-
Texts as tokens. Lines get their structure here: columns open and close block collections, and a
colon makes a key of what stands before it on its line.
-/
import QueryTree.Yaml.Scalar
import QueryTree.Yaml.Token

namespace QueryTree.Yaml

/-- Where a key may have started. -/
structure KeyStart where
  /-- The number of tokens before it. -/
  index : Nat
  place : Cursor
  /-- Nothing but a key can stand there. -/
  required : Bool

/-- A key is on one line, and from its start to its colon there are no more than 1024 bytes. -/
def KeyStart.reaches (k : KeyStart) (p : Cursor) : Bool :=
  k.place.line == p.line && p.byteColumn ≤ k.place.byteColumn + 1024

/-- A text that has been read up to a place. -/
structure Lexer where
  place : Cursor
  tokens : Array Token := #[]
  /-- Columns of the open block collections, innermost first. -/
  indents : List Nat := []
  /-- Where a key may have started in the innermost flow collection, or outside of all. -/
  start : Option KeyStart := none
  /-- Where a key may have started around each open flow collection, innermost first. -/
  outer : List (Option KeyStart) := []
  /-- A key may start here. -/
  keyAllowed : Bool := true

namespace Lexer

def inFlow (s : Lexer) : Bool := !s.outer.isEmpty

/-- Goes on by `length` characters, which make a token. -/
def put (s : Lexer) (t : Token) (length : Nat) : Lexer :=
  { s with place := s.place.skip length, tokens := s.tokens.push t }

/-! ## Block collections -/

/-- Opens a block collection before the token at `index`, unless the innermost one is at `column` or
deeper. There are none in flow collections. -/
def openBlock (s : Lexer) (t : Token) (column index : Nat) : Lexer :=
  if s.inFlow || s.indents.head?.any (column ≤ ·) then s
  else { s with indents := column :: s.indents, tokens := s.tokens.insertIdxIfInBounds index t }

/-- Closes the innermost block collections while their columns pass a test. -/
def closeBlocks (s : Lexer) (test : Nat → Bool) : Lexer :=
  if s.inFlow then s
  else
    let closed := s.indents.takeWhile test
    { s with
      indents := s.indents.dropWhile test
      tokens := s.tokens ++ closed.map fun _ => Token.blockEnd }

/-- Opens the block collection that a mark here belongs to. It stands where a key may. -/
def atBlock (s : Lexer) (t : Token) : Option Lexer :=
  if s.inFlow then some s
  else if s.keyAllowed then some (s.openBlock t s.place.column s.tokens.size)
  else none

/-! ## Starts of keys -/

/-- What started here is no key. -/
def dropStart (s : Lexer) : Option Lexer :=
  if s.start.any (·.required) then none else some { s with start := none }

/-- A key may start here, if keys are allowed. -/
def markStart (s : Lexer) : Option Lexer :=
  if s.keyAllowed then
    s.dropStart.map fun s =>
      { s with
        start := some {
          index := s.tokens.size
          place := s.place
          required := !s.inFlow && s.indents.head? == some s.place.column } }
  else some s

/-- What is too far off is no key. -/
def dropDistant (s : Lexer) : Option Lexer :=
  if (s.start :: s.outer).any (·.any fun k => k.required && !k.reaches s.place) then none
  else
    some { s with
      start := s.start.filter (·.reaches s.place)
      outer := s.outer.map (·.filter (·.reaches s.place)) }

/-! ## Tokens -/

def openFlow (s : Lexer) (t : Token) : Option Lexer :=
  s.markStart.map fun s =>
    { s.put t 1 with start := none, outer := s.start :: s.outer, keyAllowed := true }

def closeFlow (s : Lexer) (t : Token) : Option Lexer :=
  s.dropStart.map fun s =>
    { s.put t 1 with start := s.outer.headD none, outer := s.outer.tail, keyAllowed := false }

def comma (s : Lexer) : Option Lexer :=
  s.dropStart.map fun s => { s.put .comma 1 with keyAllowed := true }

def item (s : Lexer) : Option Lexer :=
  match s.atBlock .listStart with
  | some s => s.dropStart.map fun s => { s.put .item 1 with keyAllowed := true }
  | none => none

/-- A key after a question mark. -/
def markedKey (s : Lexer) : Option Lexer :=
  match s.atBlock .mapStart with
  | some s => s.dropStart.map fun s => { s.put .key 1 with keyAllowed := !s.inFlow }
  | none => none

/-- A colon. It makes a key of what stands before it. -/
def value (s : Lexer) : Option Lexer :=
  match s.start with
  | some k =>
    let s := { s with
      tokens := s.tokens.insertIdxIfInBounds k.index .key
      start := none
      keyAllowed := false }
    some ((s.openBlock .mapStart k.place.column k.index).put .value 1)
  | none =>
    (s.atBlock .mapStart).map fun s => { s.put .value 1 with keyAllowed := !s.inFlow }

def quotedScalar (s : Lexer) (quote : Char) : Option Lexer :=
  match s.markStart, quoted quote s.place with
  | some s, some (text, p) =>
    some { s with
      place := p
      tokens := s.tokens.push (.scalar false text)
      keyAllowed := false }
  | _, _ => none

/-- A plain scalar and the white space after it. On a new line a key may start. -/
def plainScalar (s : Lexer) : Option Lexer :=
  let indent := match s.indents with
    | column :: _ => column + 1
    | [] => 0
  match s.markStart, plain s.inFlow indent s.place with
  | some s, some (text, p) =>
    let next := p.skipWhile isGap
    some { s with
      place := next
      tokens := s.tokens.push (.scalar true text)
      keyAllowed := p.line < next.line }
  | _, _ => none

/-- A line that opens or closes a document. -/
def marker (s : Lexer) (t : Token) : Option Lexer :=
  (s.closeBlocks fun _ => true).dropStart.map fun s => { s.put t 3 with keyAllowed := false }

/-- Reads the token that starts with the character here. Anchors, tags, directives and block scalars
are refused. -/
def next (s : Lexer) (c : Char) : Option Lexer :=
  let p := s.place
  if p.atMarker then s.marker (if c == '-' then .documentStart else .documentEnd)
  else match c with
    | '[' => s.openFlow .flowListStart
    | '{' => s.openFlow .flowMapStart
    | ']' => s.closeFlow .flowListEnd
    | '}' => s.closeFlow .flowMapEnd
    | ',' => s.comma
    | '\x22' | '\x27' => s.quotedScalar c
    | _ =>
      if c == '-' && p.isParted 1 then s.item
      else if c == '?' && (s.inFlow || p.isParted 1) then s.markedKey
      else if c == ':' && (s.inFlow || p.isParted 1) then s.value
      else if "\t&*!|>%@`".toList.contains c then none
      else s.plainScalar

/-! ## Texts -/

/-- Skips white space and comments. Outside of flow collections a key may start on a new line, and
where it may, a tab is not skipped. A byte order mark may stand at the start of a line. -/
def toToken : Nat → Lexer → Lexer
  | 0, s => s
  | fuel + 1, s =>
    let p := s.place
    match p.rest with
    | [] => s
    | c :: _ =>
      if c == ' ' || (c == '\t' && (s.inFlow || !s.keyAllowed))
          || (c == '\ufeff' && p.column == 0) then
        toToken fuel { s with place := p.next }
      else if isBreak c then
        toToken fuel { s with place := p.next, keyAllowed := s.keyAllowed || !s.inFlow }
      else if c == '#' then toToken fuel { s with place := p.skipWhile (!isBreak ·) }
      else s

def readTokens : Nat → Lexer → Option (List Token)
  | 0, _ => none
  | fuel + 1, s =>
    match (s.toToken s.place.rest.length).dropDistant with
    | none => none
    | some s =>
      match s.place.rest with
      | [] => (s.closeBlocks fun _ => true).dropStart.map (·.tokens.toList)
      | c :: _ =>
        match (s.closeBlocks (s.place.column < ·)).next c with
        | some s => readTokens fuel s
        | none => none

end Lexer

/-- The tokens of a text. -/
def Token.ofText? (text : String) : Option (List Token) :=
  let cs := text.toList
  if cs.all isPrintable then Lexer.readTokens (cs.length + 1) { place := .start (unifyBreaks cs) }
  else none

end QueryTree.Yaml
