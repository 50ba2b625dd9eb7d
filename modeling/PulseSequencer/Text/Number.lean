import PulseSequencer.Shortest

/-!
# Numbers as text

* `floatText` — the fewest digits that read back, positional from `0.0001` up to `10 ^ 16`, else with an
  exponent of at least two digits.
* `complexText` — the two parts without a trailing `.0`; the real part is left out if it is `0.0`.
* `hexText`, `paddedHex`, `binaryText` — digits in other bases.
* `digitsValue`, `readHex?` — numbers read from digits.
-/

namespace PulseSequencer

def zeros (n : Nat) : List Char := List.replicate n '0'

/-- Pads digits on the left with zeros up to a width. -/
def padZeros (width : Nat) (digits : List Char) : List Char :=
  zeros (width - digits.length) ++ digits

/-- How the digits of a float are laid out: `wholePoint` keeps `.0` behind a whole number. -/
structure FloatLayout where
  wholePoint : Bool
  smallest : Int
  largest : Int
  exponentWidth : Nat

/-- A float on its own: a whole number keeps its point. -/
def FloatLayout.plain : FloatLayout := ⟨true, -4, 16, 2⟩

/-- A part of a complex number: a whole number has no point. -/
def FloatLayout.part : FloatLayout := ⟨false, -4, 16, 2⟩

namespace FloatLayout

def exponentText (layout : FloatLayout) (e : Int) : List Char :=
  let digits := padZeros layout.exponentWidth (Nat.toDigits 10 e.natAbs)
  'e' :: (if e < 0 then '-' else '+') :: digits

/-- Lays out the digits of a positive decimal. -/
def positive (layout : FloatLayout) (d : Decimal) : List Char :=
  let digits := Nat.toDigits 10 d.digits
  let point : Int := digits.length + d.scale
  let fraction (ds : List Char) : List Char := if ds.isEmpty then [] else '.' :: ds
  if point - 1 < layout.smallest ∨ layout.largest ≤ point - 1 then
    digits.take 1 ++ fraction (digits.drop 1) ++ layout.exponentText (point - 1)
  else if point ≤ 0 then
    '0' :: '.' :: (zeros (-point).toNat ++ digits)
  else if (digits.length : Int) ≤ point then
    digits ++ zeros (point - digits.length).toNat ++ if layout.wholePoint then ['.', '0'] else []
  else
    digits.take point.toNat ++ '.' :: digits.drop point.toNat

/-- The text of a float. -/
def text (layout : FloatLayout) (x : Float) : String :=
  match Binary64.ofFloat x with
  | .nan => "nan"
  | .infinite negative => if negative then "-inf" else "inf"
  | .finite negative m =>
    let body := if m.mantissa = 0 then '0' :: (if layout.wholePoint then ['.', '0'] else [])
      else layout.positive m.shortest
    String.ofList (if negative then '-' :: body else body)

end FloatLayout

def floatText (x : Float) : String := FloatLayout.plain.text x

/-- The text of a complex number given by its parts. -/
def complexText (re im : Float) : String :=
  let part := FloatLayout.part.text
  if re.toBits = 0 then part im ++ "j"
  else
    let i := part im
    "(" ++ part re ++ (if i.startsWith "-" then i else "+" ++ i) ++ "j)"

/-- Lower-case hexadecimal digits. -/
def hexDigits (n : Nat) : List Char := Nat.toDigits 16 n

/-- An integer in hexadecimal behind `0x`, the sign first. -/
def hexText (n : Int) : String :=
  (if n < 0 then "-0x" else "0x") ++ String.ofList (hexDigits n.natAbs)

/-- The digits of an integer in hexadecimal, filled with zeros behind the sign to a width. -/
def paddedHex (width : Nat) (n : Int) : String :=
  String.ofList <|
    if n < 0 then '-' :: padZeros (width - 1) (hexDigits n.natAbs)
    else padZeros width (hexDigits n.natAbs)

/-- The binary digits of a number, filled with zeros to a width. -/
def binaryText (width n : Nat) : String := String.ofList (padZeros width (Nat.toDigits 2 n))

/-- The number that decimal digits stand for. -/
def digitsValue (digits : List Char) : Nat :=
  digits.foldl (fun n c => 10 * n + (c.toNat - '0'.toNat)) 0

/-- Reads an unsigned hexadecimal number, in either case of letters. -/
def readHexDigits? (digits : List Char) : Option Nat :=
  if digits.isEmpty then none
  else digits.foldlM (fun n c => (hexDigit? c).map (16 * n + ·)) 0
where
  hexDigit? (c : Char) : Option Nat :=
    if c.isDigit then some (c.toNat - '0'.toNat)
    else if 'a' ≤ c ∧ c ≤ 'f' then some (c.toNat - 'a'.toNat + 10)
    else if 'A' ≤ c ∧ c ≤ 'F' then some (c.toNat - 'A'.toNat + 10)
    else none

/-- Reads an integer written as by `hexText`. -/
def readHex? (s : String) : Option Int :=
  match s.toList with
  | '-' :: '0' :: 'x' :: digits => (readHexDigits? digits).map fun n => -(n : Int)
  | '0' :: 'x' :: digits => (readHexDigits? digits).map fun n => (n : Int)
  | _ => none

end PulseSequencer
