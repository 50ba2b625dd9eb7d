import PulseSequencer.Yaml.Fault

/-!
# Tokens of a YAML text

* `Kind` — what a token is.
* `Token` — a token, where it stands, and the comments by it.
* `attachComments` — gives the comments among tokens to the tokens they stand by.
-/

namespace PulseSequencer.Yaml

/-- A line that speaks about the document. -/
inductive Directive where
  | version (major minor : Nat)
  | handle (name expansion : String)
  | other
  deriving DecidableEq, Repr

inductive Kind where
  | directive (d : Directive)
  | documentStart
  | documentEnd
  | streamEnd
  | blockSequenceStart
  | blockMappingStart
  | blockEnd
  | flowSequenceStart
  | flowSequenceEnd
  | flowMappingStart
  | flowMappingEnd
  | blockEntry
  | flowEntry
  | key
  | value
  | alias (name : String)
  | anchor (name : String)
  | tag (handle : Option String) (suffix : String)
  | scalar (text : List Char) (isPlain : Bool)
  | comment (text : List Char)
  | failed (fault : Fault)
  deriving DecidableEq, Repr

structure Token where
  kind : Kind
  start : Mark
  endLine : Nat
  remarks : Remarks := {}

namespace Token

def isComment (t : Token) : Bool :=
  match t.kind with
  | .comment _ => true
  | _ => false

def isScalar (t : Token) : Bool :=
  match t.kind with
  | .scalar _ _ => true
  | _ => false

/-- Whether a comment on the line where the token ends stands by the token. -/
def takesComment (t : Token) : Bool :=
  t.isScalar || [Kind.value, .flowSequenceEnd, .flowMappingEnd].contains t.kind

def comment (t : Token) : Comment :=
  match t.kind with
  | .comment text => ⟨text, t.start⟩
  | _ => ⟨[], t.start⟩

end Token

/-- Comments in one, each behind the blanks in front of it. -/
def joinComments : List Comment → Option Comment
  | [] => none
  | c :: cs => some ⟨c.text ++ cs.flatMap fun d => List.replicate d.start.column ' ' ++ d.text, c.start⟩

/-- The comment that a value mark takes from those behind it. -/
def Token.withBehind (t : Token) (comments : List Comment) : Token :=
  if t.kind = .value then { t with remarks := { t.remarks with behind := joinComments comments } } else t

/-- Gives comments to tokens: to the token in front of them if that takes comments and the first one
stands on its last line, also to a scalar from the lines below, and else to the token behind them. -/
def attachComments : List Comment → List Token → List Token
  | _, [] => []
  | before, t :: ts =>
    if t.isComment then attachComments (before ++ [t.comment]) ts
    else
      let comments := (ts.takeWhile Token.isComment).map Token.comment
      let sameLine := (comments.head?.map (·.start.line)) == some t.endLine
      let t := { t with remarks := { t.remarks with before := before } }
      if t.isScalar || (t.takesComment && sameLine) then
        t.withBehind comments :: attachComments [] (ts.dropWhile Token.isComment)
      else t :: attachComments [] ts
termination_by _ ts => ts.length
decreasing_by
  · simp
  · have := (List.dropWhile_sublist (l := ts) Token.isComment).length_le
    simp; omega
  · simp

end PulseSequencer.Yaml
