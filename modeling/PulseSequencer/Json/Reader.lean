import PulseSequencer.Json.Basic
import PulseSequencer.Table

/-!
# Reading JSON

A text is cut into tokens by an automaton that takes one character at a time; the tokens are put
together with the open containers held in a list.

* `Json.tokens?` — the tokens of a text.
* `Json.parseWithin?` — the value of a text within limits on nesting and on the length of integers. Of
  members with the same name the last one counts.
* `Json.parse?` — the value of a text, without limits.
-/

namespace PulseSequencer.Json

/-- Scales the decimal `m * 10 ^ e`; far outside the range of floats the result is infinite or zero. -/
def decimalFloat (m : Nat) (e : Int) : Float :=
  let size : Int := (Nat.toDigits 10 m).length + e
  if m = 0 ∨ size < -400 then 0.0
  else if 400 < size then 1.0 / 0.0
  else Float.ofScientific m (e < 0) e.natAbs

/-- The exponent of a number: empty, or a mark, perhaps a sign, and digits. -/
def exponent? : List Char → Option (Option Int)
  | [] => some none
  | mark :: cs =>
    if mark = 'e' ∨ mark = 'E' then
      let (negative, ds) := match cs with
        | '-' :: ds => (true, ds)
        | '+' :: ds => (false, ds)
        | ds => (false, ds)
      if ds.isEmpty || !ds.all Char.isDigit then none
      else
        let n : Int := digitsValue ds
        some (some (if negative then -n else n))
    else none

/-- A number without its sign. -/
def unsigned? (negative : Bool) (cs : List Char) : Option Json :=
  let whole := cs.takeWhile Char.isDigit
  let rest := cs.dropWhile Char.isDigit
  let (fraction, rest, pointed) := match rest with
    | '.' :: r => (r.takeWhile Char.isDigit, r.dropWhile Char.isDigit, true)
    | r => ([], r, false)
  if whole.isEmpty || (whole.length > 1 && whole.head? == some '0') then none
  else if pointed && fraction.isEmpty then none
  else
    match exponent? rest with
    | none => none
    | some power =>
      if !pointed && power.isNone then
        let n : Int := digitsValue whole
        some (.int (if negative then -n else n))
      else
        let x := decimalFloat (digitsValue (whole ++ fraction)) (power.getD 0 - fraction.length)
        some (.float (if negative then -x else x))

/-- A number. -/
def number? : List Char → Option Json
  | '-' :: cs => unsigned? true cs
  | cs => unsigned? false cs

/-- A value that is not quoted and has no parts. -/
def scalar? (word : String) : Option Json :=
  match word with
  | "null" => some .null
  | "true" => some (.bool true)
  | "false" => some (.bool false)
  | "NaN" => some (.float (0.0 / 0.0))
  | "Infinity" => some (.float (1.0 / 0.0))
  | "-Infinity" => some (.float (-1.0 / 0.0))
  | _ => number? word.toList

/-- What a text may not exceed. -/
structure Limits where
  /-- Containers with parts inside each other. -/
  depth : Option Nat := none
  /-- Characters of the whole part of a number, with its sign. -/
  digits : Option Nat := none

def Limits.allows (limit : Option Nat) (n : Nat) : Bool := limit.all (n ≤ ·)

/-- The characters in front of the point and the exponent of a number. -/
def wholePart (word : List Char) : List Char := word.takeWhile fun c => c.isDigit || c = '-'

inductive Token where
  | mark (c : Char)
  | text (s : String)
  | scalar (j : Json)

/-- Where the automaton stands; characters read so far are held last first. -/
inductive Mode where
  | between
  | word (cs : List Char)
  | text (cs : List Char)
  | escape (cs : List Char)
  | unit (cs : List Char) (high : Option Nat) (digits : List Char)
  | pairStart (cs : List Char) (high : Nat)
  | pairMark (cs : List Char) (high : Nat)

structure Lexer where
  mode : Mode
  /-- Last first. -/
  tokens : List Token

def isMark (c : Char) : Bool := [',', ':', '[', ']', '\x7b', '\x7d'].contains c

def isBlank (c : Char) : Bool := c = ' ' || c = '\n' || c = '\r' || c = '\t'

def isWordChar (c : Char) : Bool := c.isAlphanum || c = '+' || c = '-' || c = '.'

/-- The character of a short escape. -/
def shortEscape? (c : Char) : Option Char :=
  if c = doubleQuote || c = backslash || c = '/' then some c
  else if c = 'b' then some '\x08'
  else if c = 'f' then some '\x0c'
  else if c = 'n' then some '\n'
  else if c = 'r' then some '\r'
  else if c = 't' then some '\t'
  else none

/-- What follows a complete unit of sixteen bits: halves of a pair must stand together. -/
def afterUnit (cs : List Char) (high : Option Nat) (n : Nat) : Option Mode :=
  match high with
  | some h =>
    if 0xdc00 ≤ n ∧ n < 0xe000 then
      some (.text (Char.ofNat (0x10000 + (h - 0xd800) * 0x400 + (n - 0xdc00)) :: cs))
    else none
  | none =>
    if 0xd800 ≤ n ∧ n < 0xdc00 then some (.pairStart cs n)
    else if 0xdc00 ≤ n ∧ n < 0xe000 then none
    else some (.text (Char.ofNat n :: cs))

namespace Lexer

/-- One character outside words and strings. -/
def start (tokens : List Token) (c : Char) : Option Lexer :=
  if isBlank c then some ⟨.between, tokens⟩
  else if isMark c then some ⟨.between, .mark c :: tokens⟩
  else if c = doubleQuote then some ⟨.text [], tokens⟩
  else if isWordChar c then some ⟨.word [c], tokens⟩
  else none

def wordToken? (limits : Limits) (cs : List Char) : Option Token :=
  if Limits.allows limits.digits (wholePart cs.reverse).length then
    (scalar? (String.ofList cs.reverse)).map .scalar
  else none

def step (limits : Limits) (l : Lexer) (c : Char) : Option Lexer :=
  match l.mode with
  | .between => start l.tokens c
  | .word cs =>
    if isWordChar c then some ⟨.word (c :: cs), l.tokens⟩
    else (wordToken? limits cs).bind fun t => start (t :: l.tokens) c
  | .text cs =>
    if c = doubleQuote then some ⟨.between, .text (String.ofList cs.reverse) :: l.tokens⟩
    else if c = backslash then some ⟨.escape cs, l.tokens⟩
    else if c < ' ' then none
    else some ⟨.text (c :: cs), l.tokens⟩
  | .escape cs =>
    if c = 'u' then some ⟨.unit cs none [], l.tokens⟩
    else (shortEscape? c).map fun d => ⟨.text (d :: cs), l.tokens⟩
  | .unit cs high digits =>
    if digits.length < 3 then some ⟨.unit cs high (c :: digits), l.tokens⟩
    else do
      let n ← readHexDigits? (c :: digits).reverse
      let mode ← afterUnit cs high n
      return ⟨mode, l.tokens⟩
  | .pairStart cs high =>
    if c = backslash then some ⟨.pairMark cs high, l.tokens⟩ else none
  | .pairMark cs high =>
    if c = 'u' then some ⟨.unit cs (some high) [], l.tokens⟩ else none

/-- The tokens at the end of the text. -/
def finish? (limits : Limits) (l : Lexer) : Option (List Token) :=
  match l.mode with
  | .between => some l.tokens.reverse
  | .word cs => (wordToken? limits cs).map fun t => (t :: l.tokens).reverse
  | _ => none

end Lexer

/-- The tokens of a text. -/
def tokens? (limits : Limits) (s : String) : Option (List Token) :=
  (s.toList.foldlM (Lexer.step limits) ⟨.between, []⟩).bind (Lexer.finish? limits)

/-- A container with its parts so far, last first; an object may wait for the value of a name. -/
inductive Container where
  | arr (items : List Json)
  | obj (members : List (String × Json)) (name : String)

/-- What may come next. -/
inductive Expect where
  | value
  | firstItem
  | firstName
  | name
  | colon
  | next
  | nothing
  deriving DecidableEq

structure Builder where
  opened : List Container
  expect : Expect
  result : Json := .null

namespace Builder

/-- Takes a complete value. -/
def put (b : Builder) (j : Json) : Builder :=
  match b.opened with
  | [] => ⟨[], .nothing, j⟩
  | .arr items :: rest => ⟨.arr (j :: items) :: rest, .next, .null⟩
  | .obj members name :: rest => ⟨.obj ((name, j) :: members) name :: rest, .next, .null⟩

/-- Closes the innermost container if its mark is the given one. -/
def close (b : Builder) (c : Char) : Option Builder :=
  match b.opened with
  | .arr items :: rest =>
    if c = ']' then some (put ⟨rest, .next, .null⟩ (.arr items.reverse)) else none
  | .obj members _ :: rest =>
    if c = '\x7d' then
      some (put ⟨rest, .next, .null⟩ (.obj (Table.ofList members.reverse).entries))
    else none
  | [] => none

/-- A token where a value may start. -/
def value (b : Builder) : Token → Option Builder
  | .scalar j => some (b.put j)
  | .text s => some (b.put (.str s))
  | .mark '[' => some ⟨.arr [] :: b.opened, .firstItem, .null⟩
  | .mark '\x7b' => some ⟨.obj [] "" :: b.opened, .firstName, .null⟩
  | .mark _ => none

/-- The name of a member. -/
def name (b : Builder) (s : String) : Option Builder :=
  match b.opened with
  | .obj members _ :: rest => some ⟨.obj members s :: rest, .colon, .null⟩
  | _ => none

/-- One token; a container counts as soon as it has a part. -/
def step (limits : Limits) (b : Builder) (t : Token) : Option Builder :=
  let deep := !Limits.allows limits.depth b.opened.length
  match b.expect, t with
  | .value, t => b.value t
  | .firstItem, .mark ']' => b.close ']'
  | .firstItem, t => if deep then none else b.value t
  | .firstName, .mark '\x7d' => b.close '\x7d'
  | .firstName, .text s => if deep then none else b.name s
  | .name, .text s => b.name s
  | .colon, .mark ':' => some ⟨b.opened, .value, .null⟩
  | .next, .mark ',' =>
    match b.opened with
    | .arr _ :: _ => some ⟨b.opened, .value, .null⟩
    | .obj _ _ :: _ => some ⟨b.opened, .name, .null⟩
    | [] => none
  | .next, .mark c => b.close c
  | _, _ => none

end Builder

/-- The value of a text within limits. -/
def parseWithin? (limits : Limits) (s : String) : Option Json := do
  let tokens ← tokens? limits s
  let b ← tokens.foldlM (Builder.step limits) ⟨[], .value, .null⟩
  if b.expect = .nothing then some b.result else none

/-- The value of a text. -/
def parse? (s : String) : Option Json := parseWithin? {} s

end PulseSequencer.Json
