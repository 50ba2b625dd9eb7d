import PulseSequencer.Yaml.Fault

/-!
# Quoted scalars

Between quotes, blanks around a break fold with it: one break becomes a blank, and of several all but
the first are kept. In single quotes a quote is written twice; in double quotes a backslash starts an
escape, and hides a break behind it.

* `quotedScalar` — the text of a quoted scalar, from behind its first quote.
-/

namespace PulseSequencer.Yaml

/-- A character of a short escape. -/
def shortEscape? (c : Char) : Option Char :=
  [('0', '\x00'), ('a', '\x07'), ('b', '\x08'), ('t', '\t'), ('\t', '\t'), ('n', '\n'), ('v', '\x0b'),
    ('f', '\x0c'), ('r', '\r'), ('e', '\x1b'), (' ', ' '), (doubleQuote, doubleQuote), ('/', '/'),
    (backslash, backslash), ('N', '\u0085'), ('_', '\u00a0'), ('L', '\u2028'), ('P', '\u2029')].lookup c

/-- The number of hexadecimal digits of an escape. -/
def escapeWidth? (c : Char) : Option Nat := [('x', 2), ('u', 4), ('U', 8)].lookup c

def isHighHalf (n : Nat) : Bool := 0xd800 ≤ n && n < 0xdc00

def isLowHalf (n : Nat) : Bool := 0xdc00 ≤ n && n < 0xe000

/-- What a text has read so far, last first; the first half of a pair may wait for the second. -/
structure Gathered where
  chars : List Char := []
  half : Option Nat := none

namespace Gathered

/-- Takes a half that found no partner as the character that stands for none. -/
def settled (g : Gathered) : List Char :=
  match g.half with
  | some _ => '\ufffd' :: g.chars
  | none => g.chars

def push (g : Gathered) (cs : List Char) : Gathered := ⟨cs.reverse ++ g.settled, none⟩

/-- Takes a character by its number. -/
def number (g : Gathered) (n : Nat) : Except Fault Gathered :=
  if 0x10ffff < n then .error .characterNumber
  else
    match g.half with
    | some high =>
      if isLowHalf n then
        .ok ⟨Char.ofNat (0x10000 + (high - 0xd800) * 0x400 + (n - 0xdc00)) :: g.chars, none⟩
      else if isHighHalf n then .ok ⟨g.settled, some n⟩
      else .ok ⟨Char.ofNat n :: g.settled, none⟩
    | none =>
      if isHighHalf n then .ok ⟨g.chars, some n⟩
      else if isLowHalf n then .ok ⟨'\ufffd' :: g.chars, none⟩
      else .ok ⟨Char.ofNat n :: g.chars, none⟩

def text (g : Gathered) : List Char := g.settled.reverse

end Gathered

/-- The breaks from here, with blanks between them; the mark of a document may not stand among them. -/
def foldedBreaks : Nat → Cursor → Except Fault (List Char × Cursor)
  | 0, _ => .error .unreadable
  | fuel + 1, c =>
    if c.atSeparator then .error .unreadable
    else
      let c := c.skipWhile isBlank
      match c.takeBreak? with
      | none => .ok ([], c)
      | some (ch, c) => do
        let (cs, c) ← foldedBreaks fuel c
        return (ch :: cs, c)

/-- What a break and those behind it become. -/
def folded (first : Char) (others : List Char) : List Char :=
  if first ≠ '\n' then first :: others
  else if others.isEmpty then [' ']
  else others

/-- The escape behind a backslash. -/
def escape (c : Cursor) (g : Gathered) : Except Fault (Gathered × Cursor) :=
  match c.peek with
  | none => .error .unreadable
  | some ch =>
    match shortEscape? ch, escapeWidth? ch with
    | some d, _ => .ok (g.push [d], c.next)
    | none, some width =>
      let digits := c.next.rest.take width
      match readHexDigits? digits with
      | some n =>
        if digits.length < width then .error .unreadable
        else do return (← g.number n, c.skip (width + 1))
      | none => .error .unreadable
    | none, none =>
      match c.takeBreak? with
      | some (_, c) => do
        let (cs, c) ← foldedBreaks (c.rest.length + 1) c
        return (g.push cs, c)
      | none => .error .unreadable

/-- The rest of a quoted scalar; every step takes a character, so the length bounds the steps. -/
def quotedRest (quote : Char) : Nat → Cursor → Gathered → Except Fault (List Char × Cursor)
  | 0, _, _ => .error .unreadable
  | fuel + 1, c, g =>
    match c.peek with
    | none => .error .unreadable
    | some ch =>
      if ch = quote then
        if quote = singleQuote ∧ c.peekAt 1 = some quote then
          quotedRest quote fuel (c.skip 2) (g.push [quote])
        else .ok (g.text, c.next)
      else if ch = backslash ∧ quote = doubleQuote then do
        let (g, c) ← escape c.next g
        quotedRest quote fuel c g
      else if isBlank ch || isBreak ch then
        let (blanks, c) := c.span isBlank
        match c.takeBreak? with
        | some (first, c) => do
          let (others, c) ← foldedBreaks (c.rest.length + 1) c
          quotedRest quote fuel c (g.push (folded first others))
        | none => quotedRest quote fuel c (g.push blanks)
      else quotedRest quote fuel c.next (g.push [ch])

/-- A quoted scalar, from behind its first quote. -/
def quotedScalar (quote : Char) (c : Cursor) : Except Fault (List Char × Cursor) :=
  quotedRest quote (c.rest.length + 1) c {}

end PulseSequencer.Yaml
