import PulseSequencer.Json.Reader

/-!
# Integers in texts

A text stands for an integer if it is a literal: digits without leading zeros, perhaps behind a minus
sign. Other texts are first cleaned: blanks around them, a plus sign, leading zeros, zeros behind a
point and single underscores between other characters are taken out.

* `IntegerText.literal` — reads a literal.
* `IntegerText.cleaned?` — cleans a text.
* `IntegerText.read` — reads a text.
-/

namespace PulseSequencer.IntegerText

/-- How a text reads as an integer. -/
inductive Reading where
  | value (n : Int)
  | tooLong
  | malformed
  deriving DecidableEq, Repr

/-- The most characters of a literal. -/
def maxLength : Nat := 4300

/-- A literal without its sign; `used` characters stand in front of it. -/
def unsignedLiteral (used : Nat) (cs : List Char) : Reading :=
  let digits := cs.takeWhile Char.isDigit
  match cs with
  | ['0'] => .value 0
  | '0' :: _ => .malformed
  | _ =>
    if maxLength < used + digits.length then .tooLong
    else if digits.isEmpty || digits.length < cs.length then .malformed
    else .value (digitsValue digits)

/-- A literal. -/
def literal : List Char → Reading
  | '-' :: cs =>
    match unsignedLiteral 1 cs with
    | .value n => .value (-n)
    | r => r
  | cs => unsignedLiteral 0 cs

/-- White space around a number. -/
def isSpace (c : Char) : Bool :=
  let n := c.toNat
  (9 ≤ n && n ≤ 13) || (0x2000 ≤ n && n ≤ 0x200a) ||
    [0x20, 0x85, 0xa0, 0x1680, 0x2028, 0x2029, 0x202f, 0x205f, 0x3000].contains n

def trimmed (cs : List Char) : List Char :=
  ((cs.dropWhile isSpace).reverse.dropWhile isSpace).reverse

/-- Takes a plus sign off; no minus sign may follow it. -/
def withoutPlus? : List Char → Option (List Char)
  | '+' :: '-' :: _ => none
  | '+' :: cs => some cs
  | cs => some cs

/-- The rest behind zeros and underscores of which `last` is the last one; a point keeps it. -/
def behindZeros? (last : Char) : List Char → Option (List Char)
  | [] => some [last]
  | c :: cs =>
    if c = '0' || c = '_' then behindZeros? c cs
    else if c.isDigit || c = '-' then some (c :: cs)
    else if c = '.' then some (last :: c :: cs)
    else none

/-- Takes leading zeros off, and what stands between them. -/
def withoutZeros? : List Char → Option (List Char)
  | [] => none
  | c :: cs =>
    if c = '0' then behindZeros? c cs
    else if c.isDigit || c = '-' then some (c :: cs)
    else none

/-- Takes zeros behind a point off. -/
def withoutFraction (cs : List Char) : List Char :=
  match cs.dropWhile (· ≠ '.') with
  | _ :: fraction =>
    if !fraction.isEmpty && fraction.all (· = '0') then cs.takeWhile (· ≠ '.') else cs
  | [] => cs

/-- Takes underscores out, if each stands alone between other characters. -/
def withoutUnderscores (cs : List Char) : List Char :=
  if (cs.splitOn '_').any List.isEmpty then cs else cs.filter (· ≠ '_')

/-- Cleans a text. -/
def cleaned? (cs : List Char) : Option (List Char) := do
  let cs ← withoutPlus? (trimmed cs)
  let cs ← withoutZeros? cs
  return withoutUnderscores (withoutFraction cs)

/-- Reads a text. Only a text that needs no cleaning is said to be too long. -/
def read (s : String) : Reading :=
  match literal s.toList with
  | .malformed =>
    match (cleaned? s.toList).map literal with
    | some (.value n) => .value n
    | _ => .malformed
  | r => r

end PulseSequencer.IntegerText
