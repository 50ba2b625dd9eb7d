import PulseSequencer.Text.Quoted
import PulseSequencer.Yaml.Cursor

/-!
# Why a YAML text has no value

* `Comment`, `Remarks` — comments, and those that stand by a token.
* `DateFault` — what is wrong with a date or a time.
* `Fault` — the causes, and their wording.
-/

namespace PulseSequencer.Yaml

/-- A comment, or lines without content. -/
structure Comment where
  text : List Char
  start : Mark
  deriving DecidableEq, Repr

def Comment.shown (c : Comment) : String :=
  s!"CommentToken({quoted (String.ofList c.text)}, line: {c.start.line}, col: {c.start.column})"

/-- The comments that stand by a token: one behind it, and those before it. A value without content
keeps the one behind it in a second place. -/
structure Remarks where
  behind : Option Comment := none
  before : List Comment := []
  isWide : Bool := false
  deriving DecidableEq, Repr

namespace Remarks

def isEmpty (r : Remarks) : Bool := r.behind.isNone && r.before.isEmpty

/-- Whether two comments would stand in one place. -/
def overlaps (r s : Remarks) : Bool :=
  (r.behind.isSome && s.behind.isSome) || (!r.before.isEmpty && !s.before.isEmpty)

/-- Both, the first where it has something. -/
def merge (r s : Remarks) : Remarks :=
  ⟨r.behind.or s.behind, if r.before.isEmpty then s.before else r.before, s.isWide⟩

def shown (r : Remarks) : String :=
  let behind := (r.behind.map Comment.shown).getD "None"
  let before := if r.before.isEmpty then "None" else bracketed (r.before.map Comment.shown)
  bracketed ([behind, before] ++ if r.isWide then ["None", "None", behind] else [])

end Remarks

/-- What is wrong with a date or a time. -/
inductive DateFault where
  | year (n : Nat)
  | month
  | day
  | hour
  | minute
  | second
  deriving DecidableEq, Repr

def DateFault.text : DateFault → String
  | .year n => s!"year {n} is out of range"
  | .month => "month must be in 1..12"
  | .day => "day is out of range for month"
  | .hour => "hour must be in 0..23"
  | .minute => "minute must be in 0..59"
  | .second => "second must be in 0..59"

/-- Why a text has no value. -/
inductive Fault where
  | unreadable
  | characterNumber
  | overlappingComments (first second : Remarks)
  | noDigits
  | tooManyDigits (n : Nat)
  | badInteger (base : Nat) (text : String)
  | badFloat (text : String)
  | badBool (text : String)
  | badDate (cause : DateFault)
  | noPlainForm (kind : String)
  | noPlainKey (kind : String)
  deriving DecidableEq, Repr

/-- The wording of a fault; of a text that cannot be read nothing more is said. -/
def Fault.message : Fault → Option String
  | .unreadable => none
  | .characterNumber => some "chr() arg not in range(0x110000)"
  | .overlappingComments first second => some s!"overlap in comment {first.shown} {second.shown}"
  | .noDigits => some "string index out of range"
  | .tooManyDigits n =>
    some (s!"Exceeds the limit (4300 digits) for integer string conversion: value has {n} digits; " ++
      "use sys.set_int_max_str_digits() to increase the limit")
  | .badInteger base text => some s!"invalid literal for int() with base {base}: {quoted text}"
  | .badFloat text => some s!"could not convert string to float: {quoted text}"
  | .badBool text => some text
  | .badDate cause => some cause.text
  | .noPlainForm kind => some s!"Object of type {kind} is not JSON serializable"
  | .noPlainKey kind => some s!"keys must be str, int, float, bool or None, not {kind}"

end PulseSequencer.Yaml
