import PulseSequencer.Yaml.BlockScalar
import PulseSequencer.Yaml.Property

/-!
# Cutting a YAML text into tokens

Collections in blocks are opened and closed by indentation. That something was a key is known only at
the colon behind it, so places where a key may have started are remembered: one for each level of
brackets. Tokens are only ever added at the end; the marks of such keys are put in front of them when
all is read.

* `Lexer` — the state: the place, the tokens so far, the open collections, and the possible keys.
* `Lexer.step` — reads one token or comment.
* `tokens` — the tokens of a text. A text that cannot be read ends with a token that says so.
-/

namespace PulseSequencer.Yaml

/-- A place where a key may have started. A required one must turn out to be a key. -/
structure Candidate where
  /-- The number of the token. -/
  position : Nat
  required : Bool
  start : Cursor

/-- A collection in brackets. -/
inductive Bracket where
  | sequence
  | mapping
  deriving DecidableEq, Repr

/-- A key that was found: the token it starts with, and whether it starts a mapping. -/
structure FoundKey where
  position : Nat
  startsMapping : Bool
  start : Mark

structure Lexer where
  cursor : Cursor
  tokens : Array Token := #[]
  keys : List FoundKey := []
  /-- The open brackets, innermost first. -/
  brackets : List Bracket := []
  /-- The column of the innermost block; `-1` outside of all. -/
  indent : Int := -1
  outerIndents : List Int := []
  keyAllowed : Bool := true
  /-- The possible keys, by the level of brackets. -/
  candidates : List (Nat × Candidate) := []
  /-- Whether the last token is the mark of a value. -/
  afterValue : Bool := false

/-- A computation on the state of a lexer that may fail. -/
abbrev Lexing := StateT Lexer (Except Fault)

/-- A comment from its mark to the end of its line, and the breaks behind it. -/
def commentText (c : Cursor) : List Char × Cursor :=
  let (line, c) := c.span (!isBreak ·)
  match c.rest with
  | [] => (line ++ ['\n'], c)
  | ch :: _ =>
    let (breaks, c) := c.next.span isBreak
    (line ++ ch :: breaks.map breakValue, c)

/-- Lines without content, up to the next content; what stands before a comment on the last line is left
out. -/
def blankLinesText (c : Cursor) : List Char × Cursor :=
  let (cs, c) := c.span fun ch => isBreak ch || isBlank ch
  let text := cs.map breakValue
  let kept := if c.peek = some '#' then (text.reverse.dropWhile (· ≠ '\n')).reverse else text
  (kept, c)

/-- Goes to the next token or comment: the place, whether a line ended, and the comment. Every step
takes a character. -/
def toToken (inFlow : Bool) : Nat → Cursor → Bool → Cursor × Bool × Option Comment
  | 0, c, ended => (c, ended, none)
  | fuel + 1, c, ended =>
    let c := c.skipWhile fun ch => ch = ' ' || (inFlow && ch = '\t')
    if c.peek = some '#' then
      let (text, d) := commentText c
      (d, true, some ⟨text, c.mark⟩)
    else
      match c.takeBreak? with
      | none => (c, ended, none)
      | some (_, c) =>
        if c.peek = some '\n' then
          let (text, d) := blankLinesText c
          (d, true, some ⟨text, c.mark⟩)
        else toToken inFlow fuel c true

namespace Lexer

def level (l : Lexer) : Nat := l.brackets.length

def inFlow (l : Lexer) : Bool := !l.brackets.isEmpty

/-- Adds a token that ends at the place of the lexer. -/
def add (kind : Kind) (start : Mark) : Lexing Unit :=
  modify fun l => { l with
    tokens := l.tokens.push ⟨kind, start, l.cursor.line, {}⟩
    afterValue := kind = .value }

/-- Fails as a text that cannot be read does. -/
def refuse {α : Type} : Lexing α := throw .unreadable

/-- Forgets the possible key of the current level. -/
def forgetCandidate : Lexing Unit := do
  let l ← get
  let level := l.level
  if (l.candidates.lookup level).any (·.required) then refuse
  set { l with candidates := l.candidates.filter (·.1 ≠ level) }

/-- Forgets possible keys that began on another line or more than `1024` characters ago. -/
def forgetStale : Lexing Unit := do
  let l ← get
  let isStale (k : Candidate) : Bool :=
    k.start.line ≠ l.cursor.line || l.cursor.index - k.start.index > 1024
  if l.candidates.any fun (_, k) => isStale k && k.required then refuse
  set { l with candidates := l.candidates.filter fun (_, k) => !isStale k }

/-- Remembers that the next token may start a key. -/
def noteCandidate : Lexing Unit := do
  let l ← get
  if l.keyAllowed then
    forgetCandidate
    let required := !l.inFlow && l.indent == l.cursor.column
    modify fun l => { l with
      candidates := (l.level, ⟨l.tokens.size, required, l.cursor⟩) :: l.candidates }

def allowKey (allowed : Bool) : Lexing Unit := modify fun l => { l with keyAllowed := allowed }

/-- Closes the blocks that are indented more than a column; inside brackets indentation is free. -/
def closeBlocks (column : Int) : Lexing Unit := do
  let l ← get
  if !l.inFlow then
    for _ in l.outerIndents do
      let l ← get
      if column < l.indent then
        add .blockEnd l.cursor.mark
        modify fun l => { l with
          indent := l.outerIndents.headD (-1), outerIndents := l.outerIndents.drop 1 }

/-- Opens a block at a column, if that is indented more than the current block. -/
def openBlock (column : Nat) : Lexing Bool := do
  let l ← get
  if l.indent < column then
    set { l with indent := column, outerIndents := l.indent :: l.outerIndents }
    return true
  else return false

/-- Takes some characters as a token. -/
def take (kind : Kind) (width : Nat) : Lexing Unit := do
  let start := (← get).cursor.mark
  modify fun l => { l with cursor := l.cursor.skip width }
  add kind start

/-- A mark between documents. -/
def documentMark (kind : Kind) : Lexing Unit := do
  closeBlocks (-1)
  forgetCandidate
  allowKey false
  take kind 3

def openBracket (b : Bracket) (kind : Kind) : Lexing Unit := do
  noteCandidate
  modify fun l => { l with brackets := b :: l.brackets }
  allowKey true
  take kind 1

def closeBracket (kind : Kind) : Lexing Unit := do
  forgetCandidate
  modify fun l => { l with brackets := l.brackets.drop 1 }
  allowKey false
  take kind 1

def flowEntry : Lexing Unit := do
  allowKey true
  forgetCandidate
  take .flowEntry 1

/-- The mark of an entry, a key or a value that may open a block. -/
def blockMark (opens : Kind) : Lexing Unit := do
  let l ← get
  if !l.inFlow then
    if !l.keyAllowed then refuse
    if ← openBlock l.cursor.column then add opens l.cursor.mark

def blockEntry : Lexing Unit := do
  blockMark .blockSequenceStart
  allowKey true
  forgetCandidate
  take .blockEntry 1

def explicitKey : Lexing Unit := do
  blockMark .blockMappingStart
  allowKey (!(← get).inFlow)
  forgetCandidate
  take .key 1

/-- The mark of a value: what stands before it was a key, if it may have been one. -/
def valueMark : Lexing Unit := do
  let l ← get
  let level := l.level
  match l.candidates.lookup level with
  | some k =>
    modify fun l => { l with candidates := l.candidates.filter (·.1 ≠ level) }
    let opens ← if l.inFlow then pure false else openBlock k.start.column
    modify fun l => { l with keys := ⟨k.position, opens, k.start.mark⟩ :: l.keys }
    allowKey false
  | none =>
    blockMark .blockMappingStart
    allowKey (!l.inFlow)
    forgetCandidate
  take .value 1

/-- A token that may be a key, read from the cursor by a scan that gives its kind. -/
def keyToken (scan : Cursor → Except Fault (Kind × Cursor)) : Lexing Unit := do
  noteCandidate
  allowKey false
  let c := (← get).cursor
  let (kind, d) ← scan c
  modify fun l => { l with cursor := d }
  add kind c.mark

def aliasToken : Lexing Unit := keyToken fun c => do
  let (name, c) ← anchorName c.next
  return (.alias name, c)

def anchorToken : Lexing Unit := keyToken fun c => do
  let (name, c) ← anchorName c.next
  return (.anchor name, c)

def tagToken : Lexing Unit := keyToken fun c => do
  let (name, suffix, c) ← tagProperty c
  return (.tag name suffix, c)

def quotedToken (quote : Char) : Lexing Unit := keyToken fun c => do
  let (text, c) ← quotedScalar quote c.next
  return (.scalar text false, c)

def plainToken : Lexing Unit := do
  noteCandidate
  let l ← get
  let start := l.cursor.mark
  let s := plainScalar l.inFlow (l.indent + 1) l.cursor
  let remarks : Remarks := { behind := s.blankLines.map (⟨·, start⟩) }
  set { l with
    cursor := s.cursor
    tokens := l.tokens.push ⟨.scalar s.text true, start, s.endLine, remarks⟩
    keyAllowed := s.lineEnded
    afterValue := false }

/-- Passes comments up to the next token; every step takes a character. -/
def passComments (inFlow : Bool) : Nat → Cursor → Cursor
  | 0, c => c
  | fuel + 1, c =>
    match toToken inFlow (c.rest.length + 1) c false with
    | (c, _, none) => c
    | (c, _, some _) => passComments inFlow fuel c

def blockToken (isFolded : Bool) : Lexing Unit := do
  allowKey true
  forgetCandidate
  let l ← get
  let (s, dropsBreaks) ← blockScalar isFolded l.indent l.cursor.next
  let c := if dropsBreaks then passComments false (s.cursor.rest.length + 1) s.cursor else s.cursor
  modify fun l => { l with cursor := s.cursor }
  add (.scalar s.text false) l.cursor.mark
  modify fun l => { l with cursor := c }

/-- Whether a colon here marks a value. -/
def atValue (l : Lexer) : Bool :=
  let apart := endsWord (l.cursor.peekAt 1)
  match l.brackets with
  | [] => apart
  | .sequence :: _ => apart
  | .mapping :: _ => !l.afterValue || apart

/-- Whether the mark of a document, of the given character, stands here. -/
def atDocumentMark (l : Lexer) (ch : Char) : Bool :=
  l.cursor.column == 0 && l.cursor.peek == some ch && l.cursor.atSeparator

/-- Reads one token that starts with a character. -/
def token (ch : Char) : Lexing Unit := do
  let l ← get
  let apart := endsWord (l.cursor.peekAt 1)
  if ch = '%' && l.cursor.column == 0 then
    closeBlocks (-1)
    forgetCandidate
    allowKey false
    let (d, c) ← directiveLine l.cursor
    modify fun l => { l with cursor := c }
    add (.directive d) l.cursor.mark
  else if l.atDocumentMark '-' then documentMark .documentStart
  else if l.atDocumentMark '.' then documentMark .documentEnd
  else if ch = '[' then openBracket .sequence .flowSequenceStart
  else if ch = '\x7b' then openBracket .mapping .flowMappingStart
  else if ch = ']' then closeBracket .flowSequenceEnd
  else if ch = '\x7d' then closeBracket .flowMappingEnd
  else if ch = ',' then flowEntry
  else if ch = '-' && apart then blockEntry
  else if ch = '?' && (l.inFlow || apart) then explicitKey
  else if ch = ':' && l.atValue then valueMark
  else if ch = '*' then aliasToken
  else if ch = '&' then anchorToken
  else if ch = '!' then tagToken
  else if ch = '|' && !l.inFlow then blockToken false
  else if ch = '>' && !l.inFlow then blockToken true
  else if ch = singleQuote || ch = doubleQuote then quotedToken ch
  else if startsPlain l.inFlow l.cursor then plainToken
  else refuse

/-- Reads one token or comment; nothing is left if the end of the text was read. -/
def step : Lexing Bool := do
  let l ← get
  let c := if l.cursor.index == 0 && l.cursor.peek == some '\ufeff' then l.cursor.next else l.cursor
  let (c, ended, comment) := toToken l.inFlow (c.rest.length + 1) c false
  set { l with cursor := c, keyAllowed := l.keyAllowed || (ended && !l.inFlow) }
  match comment with
  | some comment =>
    let text := (comment.text.reverse.dropWhile (· = ' ')).reverse
    let after := l.afterValue &&
      (l.tokens.back?.any fun t => t.endLine == comment.start.line)
    modify fun l => { l with tokens := l.tokens.push ⟨.comment text, comment.start, c.line, {}⟩ }
    modify fun l => { l with afterValue := after }
    return true
  | none =>
    forgetStale
    closeBlocks c.column
    match c.peek with
    | some ch =>
      token ch
      return true
    | none =>
      closeBlocks (-1)
      forgetCandidate
      add .streamEnd c.mark
      return false

/-- Reads all tokens; every step but the last takes a character. -/
def run : Nat → Lexer → Lexer
  | 0, l => l
  | fuel + 1, l =>
    match step.run l with
    | .ok (true, l) => run fuel l
    | .ok (false, l) => l
    | .error f => { l with tokens := l.tokens.push ⟨.failed f, l.cursor.mark, l.cursor.line, {}⟩ }

/-- The tokens from a position on, each behind the marks of the key that it starts. -/
def withKeys (keys : List FoundKey) : Nat → List Token → List Token
  | _, [] => []
  | n, t :: ts =>
    let marks := (keys.filter (·.position == n)).flatMap fun k =>
      let key : Token := ⟨.key, k.start, k.start.line, {}⟩
      if k.startsMapping then [⟨.blockMappingStart, k.start, k.start.line, {}⟩, key] else [key]
    marks ++ t :: withKeys keys (n + 1) ts

end Lexer

/-- The tokens of a text with their comments. -/
def tokens (c : Cursor) : List Token :=
  let l := Lexer.run (c.rest.length + 2) { cursor := c }
  attachComments [] (Lexer.withKeys l.keys 0 l.tokens.toList)

end PulseSequencer.Yaml
