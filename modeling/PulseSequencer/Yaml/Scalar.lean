import PulseSequencer.Json.Reader
import PulseSequencer.Yaml.Moment

/-!
# The types of YAML scalars

* `ScalarType.ofText`, `ScalarType.ofTag` — the type that the text of a plain scalar, or a tag, stands for.
* `integerOf`, `floatOf`, `boolOf` — the values of texts of these types.

Underscores may stand among the digits of numbers.
-/

namespace PulseSequencer.Yaml

/-- The types of scalars: common ones, two marks in mappings, and types with tags of their own. -/
inductive ScalarType where
  | null
  | bool
  | int
  | float
  | moment
  | str
  | mergeMark
  | defaultMark
  | other (tag : String)
  deriving DecidableEq, Repr

/-- Splits a sign off. -/
def signed (cs : List Char) : Bool × List Char :=
  match cs with
  | '-' :: r => (true, r)
  | '+' :: r => (false, r)
  | r => (false, r)

def isHexDigit (c : Char) : Bool := c.isDigit || ('a' ≤ c && c ≤ 'f') || ('A' ≤ c && c ≤ 'F')

/-- Digits of a kind among underscores, at least one character of either. -/
def isRun (digit : Char → Bool) (cs : List Char) : Bool :=
  !cs.isEmpty && cs.all fun c => digit c || c = '_'

/-- Whether a text without sign is an integer. -/
def isNatural : List Char → Bool
  | '0' :: 'b' :: r => isRun (fun c => c = '0' || c = '1') r
  | '0' :: 'o' :: r => isRun (fun c => '0' ≤ c && c ≤ '7') r
  | '0' :: 'x' :: r => isRun isHexDigit r
  | r => isRun Char.isDigit r

/-- Whether a text is empty or an exponent; its sign may be required. -/
def isExponent (needsSign : Bool) : List Char → Bool
  | [] => true
  | mark :: r =>
    let digits := (signed r).2
    (mark = 'e' || mark = 'E') && !digits.isEmpty && digits.all Char.isDigit &&
      (!needsSign || digits.length < r.length)

/-- Whether a text without sign is a float. -/
def isUnsignedFloat (cs : List Char) : Bool :=
  let isDigitOrBar (c : Char) : Bool := c.isDigit || c = '_'
  match cs with
  | '.' :: r =>
    let rest := r.dropWhile isDigitOrBar
    [".inf", ".Inf", ".INF"].contains (String.ofList cs) ||
      (rest.length < r.length && isExponent true rest)
  | d :: r =>
    d.isDigit &&
      match r.dropWhile isDigitOrBar with
      | '.' :: r => isExponent false (r.dropWhile isDigitOrBar)
      | [] => false
      | rest => isExponent false rest
  | [] => false

/-- The type that the text of a plain scalar resolves to. -/
def ScalarType.ofText (s : String) : ScalarType :=
  let cs := s.toList
  if ["", "~", "null", "Null", "NULL"].contains s then .null
  else if ["true", "True", "TRUE", "false", "False", "FALSE"].contains s then .bool
  else if [".nan", ".NaN", ".NAN"].contains s || isUnsignedFloat (signed cs).2 then .float
  else if cs.head? ≠ some '_' && isNatural (signed cs).2 then .int
  else if s = "<<" then .mergeMark
  else if s = "=" then .defaultMark
  else if (Moment.parse? s).isSome then .moment
  else .str

/-- The start of the tags of the common types. -/
def commonTag : String := "tag:yaml.org,2002:"

/-- The type that a tag stands for. -/
def ScalarType.ofTag (tag : String) : ScalarType :=
  if tag = commonTag ++ "null" then .null
  else if tag = commonTag ++ "bool" then .bool
  else if tag = commonTag ++ "int" then .int
  else if tag = commonTag ++ "float" then .float
  else if tag = commonTag ++ "timestamp" then .moment
  else if tag = commonTag ++ "str" then .str
  else if tag = commonTag ++ "merge" then .mergeMark
  else if tag = commonTag ++ "value" then .defaultMark
  else .other tag

/-- The digits of a base, read as a number. -/
def digitsOf (base : Nat) (cs : List Char) : Except Fault Nat :=
  let value? := cs.foldlM (fun n c => do
    let d ← readHexDigits? [c]
    if d < base then some (base * n + d) else none) 0
  match value? with
  | some n =>
    if cs.isEmpty then .error .noDigits
    else if base = 10 ∧ 4300 < cs.length then .error (.tooManyDigits cs.length)
    else .ok n
  | none => .error (.badInteger base (String.ofList cs))

/-- The integer that a text stands for. -/
def integerOf (s : String) : Except Fault Int := do
  let (negative, cs) := signed (s.toList.filter (· ≠ '_'))
  let n ← match cs with
    | '0' :: 'b' :: r => digitsOf 2 r
    | '0' :: 'o' :: r => digitsOf 8 r
    | '0' :: 'x' :: r => digitsOf 16 r
    | r => digitsOf 10 r
  return if negative then -(n : Int) else n

/-- The float that a text without sign and underscores stands for. -/
def unsignedFloatOf (cs : List Char) : Except Fault Float :=
  let whole := cs.takeWhile Char.isDigit
  let (fraction, rest) := match cs.dropWhile Char.isDigit with
    | '.' :: r => (r.takeWhile Char.isDigit, r.dropWhile Char.isDigit)
    | r => ([], r)
  match Json.exponent? rest with
  | some power =>
    if (whole ++ fraction).isEmpty then .error (.badFloat (String.ofList cs))
    else .ok (Json.decimalFloat (digitsValue (whole ++ fraction))
      (power.getD 0 - fraction.length))
  | none => .error (.badFloat (String.ofList cs))

/-- The float that a text stands for. -/
def floatOf (s : String) : Except Fault Float := do
  let (negative, cs) := signed ((s.toList.filter (· ≠ '_')).map Char.toLower)
  if cs.isEmpty then throw .noDigits
  let x ← match String.ofList cs with
    | ".inf" => pure (1.0 / 0.0)
    | ".nan" => pure (0.0 / 0.0)
    | _ => unsignedFloatOf cs
  return if negative then -x else x

/-- The Boolean that a text stands for. -/
def boolOf (s : String) : Except Fault Bool :=
  let word := String.ofList (s.toList.map Char.toLower)
  if ["yes", "y", "true", "on"].contains word then .ok true
  else if ["no", "n", "false", "off"].contains word then .ok false
  else .error (.badBool word)

end PulseSequencer.Yaml
