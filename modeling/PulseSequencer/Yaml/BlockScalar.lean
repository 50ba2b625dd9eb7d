import PulseSequencer.Yaml.PlainScalar

/-!
# Block scalars

A block scalar is a literal or folded text on indented lines behind a header, which may give the
indentation and say what becomes of the breaks at the end.

* `BlockHeader.read` — the header.
* `blockScalar` — the text, from behind the mark that starts it.
-/

namespace PulseSequencer.Yaml

/-- What becomes of the breaks at the end: one is kept, or none, or all of them. -/
inductive Chomping where
  | clip
  | strip
  | keep
  deriving DecidableEq, Repr

structure BlockHeader where
  chomping : Chomping := .clip
  increment : Option Nat := none

namespace BlockHeader

def chomping? : Option Char → Option Chomping
  | some '+' => some .keep
  | some '-' => some .strip
  | _ => none

/-- An indentation of at least one column. -/
def increment? : Option Char → Option Nat
  | some c => if c.isDigit then some (c.toNat - '0'.toNat) else none
  | none => none

/-- The indicators in either order. -/
def indicators (c : Cursor) : BlockHeader × Cursor :=
  match chomping? c.peek, increment? c.peek with
  | some chomping, _ =>
    match increment? (c.peekAt 1) with
    | some n => (⟨chomping, some n⟩, c.skip 2)
    | none => (⟨chomping, none⟩, c.skip 1)
  | none, some n =>
    match chomping? (c.peekAt 1) with
    | some chomping => (⟨chomping, some n⟩, c.skip 2)
    | none => (⟨.clip, some n⟩, c.skip 1)
  | none, none => ({}, c)

/-- The header and the place behind its line. -/
def read (c : Cursor) : Except Fault (BlockHeader × Cursor) :=
  let (header, c) := indicators c
  if header.increment = some 0 || !endsName c.peek then .error .unreadable
  else
    let c := c.skipWhile (· = ' ')
    let c := if c.peek = some '#' then c.skipWhile (!isBreak ·) else c
    if !endsLine c.peek then .error .unreadable
    else .ok (header, (c.takeBreak?.map (·.2)).getD c)

end BlockHeader

/-- Breaks and blanks before the first line with content. -/
structure Opening where
  cursor : Cursor
  breaks : List Char := []
  firstIndent : Option Nat := none
  maxIndent : Nat := 0

/-- Goes to the first line with content; every step takes a character. -/
def Opening.advance : Nat → Opening → Opening
  | 0, o => o
  | fuel + 1, o =>
    match o.cursor.peek with
    | some ' ' =>
      let c := o.cursor.next
      advance fuel { o with cursor := c, maxIndent := max o.maxIndent c.column }
    | _ =>
      match o.cursor.takeBreak? with
      | some (ch, c) =>
        advance fuel { o with
          cursor := c
          breaks := o.breaks ++ [ch]
          firstIndent := o.firstIndent.or (some o.cursor.column) }
      | none => o

/-- Blanks up to a column. -/
def skipIndent : Nat → Nat → Cursor → Cursor
  | 0, _, c => c
  | fuel + 1, indent, c =>
    if c.column < indent && c.peek = some ' ' then skipIndent fuel indent c.next else c

/-- The breaks from here, with blanks up to a column before and behind each. -/
def indentedBreaks (indent : Nat) : Nat → Cursor → List Char × Cursor
  | 0, c => ([], c)
  | fuel + 1, c =>
    let c := skipIndent indent indent c
    match c.takeBreak? with
    | none => ([], c)
    | some (ch, c) =>
      let (cs, c) := indentedBreaks indent fuel c
      (ch :: cs, c)

/-- A block scalar part way through: its text, the break behind its last line, and those after that. -/
structure BlockScan where
  text : List Char := []
  lastBreak : List Char := []
  breaks : List Char
  cursor : Cursor

/-- Whether a line of the scalar stands here. -/
def BlockScan.atLine (s : BlockScan) (indent : Nat) : Bool :=
  s.cursor.column == indent && s.cursor.peek.isSome

/-- The lines of a block scalar; every line takes a character. -/
def BlockScan.lines (isFolded topLevel : Bool) (indent : Nat) : Nat → BlockScan → BlockScan
  | 0, s => s
  | fuel + 1, s =>
    if !s.atLine indent then s
    else
      let isText (c : Cursor) : Bool := !c.peek.any isBlank
      let (line, c) := s.cursor.span (!isBreak ·)
      let (lastBreak, c) := match c.takeBreak? with
        | some (ch, c) => ([ch], c)
        | none => ([], c)
      let (breaks, c) := indentedBreaks indent (c.rest.length + 1) c
      let next : BlockScan := ⟨s.text ++ s.breaks ++ line, lastBreak, breaks, c⟩
      if (topLevel && c.column == 0 && c.atSeparator) || !next.atLine indent then next
      else
        let joint := if isFolded && lastBreak == ['\n'] && isText s.cursor && isText c then
            if breaks.isEmpty then [' '] else []
          else lastBreak
        lines isFolded topLevel indent fuel { next with text := next.text ++ joint, lastBreak := [] }

/-- A block scalar, from behind the mark that starts it, inside a collection of the given
indentation. -/
def blockScalar (isFolded : Bool) (outer : Int) (c : Cursor) : Except Fault (BlockScan × Bool) := do
  let (header, c) ← BlockHeader.read c
  let least := (outer + 1).toNat
  let (indent, scan) ← match header.increment with
    | none =>
      let o := Opening.advance (c.rest.length + 1) { cursor := c }
      if (o.firstIndent.any fun n => 0 < n && n < o.maxIndent) then throw .unreadable
      pure (max least o.maxIndent, ({ breaks := o.breaks, cursor := o.cursor } : BlockScan))
    | some n =>
      let indent := max least 1 + n - 1
      let (breaks, c) := indentedBreaks indent (c.rest.length + 1) c
      pure (indent, ({ breaks := breaks, cursor := c } : BlockScan))
  let topLevel := header.increment.isNone && least == 0
  let scan := scan.lines isFolded topLevel indent (scan.cursor.rest.length + 1)
  let text := match header.chomping with
    | .strip => scan.text
    | .clip => scan.text ++ scan.lastBreak
    | .keep => scan.text ++ scan.lastBreak ++ scan.breaks
  return ({ scan with text := text }, header.chomping ≠ .keep && !scan.breaks.isEmpty)

end PulseSequencer.Yaml
