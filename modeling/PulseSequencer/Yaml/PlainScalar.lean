import PulseSequencer.Yaml.QuotedScalar

/-!
# Plain scalars

A plain scalar ends before a comment, before a mark of the collection it stands in, and before a line
that is not indented enough.

* `startsPlain` — whether a plain scalar starts here.
* `plainScalar` — its text, where it ends, and what follows.
-/

namespace PulseSequencer.Yaml

/-- Characters that no plain scalar starts with, unless a word follows some of them. -/
def isIndicator (c : Char) : Bool :=
  ['-', '?', ':', ',', '[', ']', '\x7b', '\x7d', '#', '&', '*', '!', '|', '>', '\x27', '\x22', '%', '@',
    '\x60'].contains c

/-- Whether a plain scalar starts here. -/
def startsPlain (inFlow : Bool) (c : Cursor) : Bool :=
  match c.peek with
  | none => false
  | some ch =>
    if !(isIndicator ch || isBlank ch || isBreak ch) then true
    else if ch = ':' && inFlow then !(c.peekAt 1).any isBlank
    else !endsWord (c.peekAt 1) && (ch = '-' || (!inFlow && (ch = '?' || ch = ':')))

/-- Whether a plain scalar ends before a character, given the one behind that. -/
def endsPlain (inFlow : Bool) (ch : Char) (behind : Option Char) : Bool :=
  if ch = ':' then endsWord behind
  else if ch = '?' then false
  else endsWord (some ch) || (inFlow && [',', '[', ']', '\x7b', '\x7d'].contains ch)

/-- The characters of a plain scalar up to a blank or its end. -/
def plainRun (inFlow : Bool) : List Char → List Char
  | [] => []
  | ch :: r => if endsPlain inFlow ch r.head? then [] else ch :: plainRun inFlow r

/-- What stands between two parts of a plain scalar. -/
structure Gap where
  text : List Char
  /-- Whether lines without content are all that it stands for. -/
  isBlankLines : Bool

/-- Breaks and blanks from here, and the breaks among them; nothing if the mark of a document stands at
the start of a line. -/
def plainBreaks : Nat → Cursor → Option (List Char) × Cursor
  | 0, c => (some [], c)
  | fuel + 1, c =>
    let c := c.skipWhile (· = ' ')
    match c.takeBreak? with
    | none => (some [], c)
    | some (ch, c) =>
      if c.atSeparator then (none, c)
      else
        let (cs, c) := plainBreaks fuel c
        (cs.map (ch :: ·), c)

/-- The gap from here, if there is one, the place behind it, and whether a line ended in it. -/
def plainGap (c : Cursor) : Option Gap × Cursor × Bool :=
  let (blanks, c) := c.span (· = ' ')
  match c.takeBreak? with
  | none => (if blanks.isEmpty then none else some ⟨blanks, false⟩, c, false)
  | some (first, c) =>
    if c.atSeparator then (none, c, true)
    else
      let (others, c) := plainBreaks (c.rest.length + 1) c
      (others.map fun cs => ⟨folded first cs, first = '\n' && cs.head? = some '\n'⟩, c, true)

/-- A plain scalar and what follows it. -/
structure PlainScan where
  text : List Char
  endLine : Nat
  cursor : Cursor
  /-- Whether a line ended behind the scalar. -/
  lineEnded : Bool
  /-- The lines without content behind the scalar. -/
  blankLines : Option (List Char)

/-- The rest of a plain scalar behind a gap; every step takes a character. -/
def plainRest (inFlow : Bool) (indent : Int) : Nat → Gap → PlainScan → PlainScan
  | 0, _, s => s
  | fuel + 1, gap, s =>
    let run := if s.cursor.peek = some '#' then [] else plainRun inFlow s.cursor.rest
    if run.isEmpty then s
    else
      let c := s.cursor.skip run.length
      let (next, c', lineEnded) := plainGap c
      let s : PlainScan :=
        ⟨s.text ++ gap.text ++ run, c.line, c', lineEnded, next.bind fun g =>
          if g.isBlankLines then some (g.text ++ ['\n']) else none⟩
      match next with
      | none => s
      | some next =>
        if c'.peek = some '#' || (!inFlow && (c'.column : Int) < indent) then s
        else plainRest inFlow indent fuel next s

/-- A plain scalar; its further lines start at least at the column `indent`. -/
def plainScalar (inFlow : Bool) (indent : Int) (c : Cursor) : PlainScan :=
  plainRest inFlow indent (c.rest.length + 1) ⟨[], false⟩ ⟨[], c.line, c, false, none⟩

end PulseSequencer.Yaml
