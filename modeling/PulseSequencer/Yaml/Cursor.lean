/-!
# Places in a YAML text

* `Cursor` — the rest of a text and where it starts.
* `isBreak`, `isBlank`, `endsLine`, `endsWord` — the characters that end lines and words; the end of the
  text ends both.
* `Cursor.ofText?` — the start of a text, if all its characters are allowed.

A carriage return, alone or before a line feed, is read as a line feed. Other breaks do not count as
lines.
-/

namespace PulseSequencer.Yaml

/-- A place in a text. -/
structure Mark where
  line : Nat
  column : Nat
  deriving DecidableEq, Repr

structure Cursor where
  rest : List Char
  index : Nat := 0
  line : Nat := 0
  column : Nat := 0

/-- Whether a character breaks lines. -/
def isBreak (c : Char) : Bool := c = '\n' || c = '\u0085' || c = '\u2028' || c = '\u2029'

def isBlank (c : Char) : Bool := c = ' ' || c = '\t'

/-- The break that stands for a character in values. -/
def breakValue (c : Char) : Char := if c = '\u0085' then '\n' else c

/-- Whether a line ends here. -/
def endsLine : Option Char → Bool
  | none => true
  | some c => isBreak c

/-- Whether a line or a word ends here. -/
def endsWord : Option Char → Bool
  | none => true
  | some c => isBreak c || isBlank c

/-- Whether a line ends here or a blank stands here. -/
def endsName : Option Char → Bool
  | none => true
  | some c => isBreak c || c = ' '

/-- The characters that a text may hold. -/
def isAllowed (c : Char) : Bool :=
  let n := c.toNat
  c = '\t' || c = '\n' || c = '\r' || (0x20 ≤ n && n ≤ 0x7e) || n = 0x85 ||
    (0xa0 ≤ n && n ≤ 0xd7ff) || (0xe000 ≤ n && n ≤ 0xfffd) || 0x10000 ≤ n

/-- Reads carriage returns as line feeds. -/
def lineFeeds : List Char → List Char
  | '\r' :: '\n' :: r => '\n' :: lineFeeds r
  | '\r' :: r => '\n' :: lineFeeds r
  | c :: r => c :: lineFeeds r
  | [] => []

namespace Cursor

/-- The start of a text. -/
def ofText? (s : String) : Option Cursor :=
  if s.toList.all isAllowed then some { rest := lineFeeds s.toList } else none

def mark (c : Cursor) : Mark := ⟨c.line, c.column⟩

def peek (c : Cursor) : Option Char := c.rest.head?

def peekAt (c : Cursor) (n : Nat) : Option Char := c.rest[n]?

/-- One character further. A byte order mark takes no column. -/
def next (c : Cursor) : Cursor :=
  match c.rest with
  | [] => c
  | '\n' :: r => ⟨r, c.index + 1, c.line + 1, 0⟩
  | '\ufeff' :: r => ⟨r, c.index + 1, c.line, c.column⟩
  | _ :: r => ⟨r, c.index + 1, c.line, c.column + 1⟩

/-- Some characters further. -/
def skip : Nat → Cursor → Cursor
  | 0, c => c
  | n + 1, c => skip n c.next

/-- The characters from here that satisfy a test, and the place behind them. -/
def span (test : Char → Bool) (c : Cursor) : List Char × Cursor :=
  let cs := c.rest.takeWhile test
  (cs, c.skip cs.length)

/-- Behind the characters that satisfy a test. -/
def skipWhile (test : Char → Bool) (c : Cursor) : Cursor := (c.span test).2

/-- The value of a break that stands here, and the place behind it. -/
def takeBreak? (c : Cursor) : Option (Char × Cursor) :=
  match c.peek with
  | some ch => if isBreak ch then some (breakValue ch, c.next) else none
  | none => none

/-- Whether the mark that opens or closes a document stands here. -/
def atSeparator (c : Cursor) : Bool :=
  (c.rest.take 3 == ['-', '-', '-'] || c.rest.take 3 == ['.', '.', '.']) && endsWord (c.peekAt 3)

end Cursor

end PulseSequencer.Yaml
