import PulseSequencer.Rounding

/-!
# Room for samples

Samples are computed in arrays. Their sizes are bounded by the range of indices, by the number of
bytes that can be addressed, and by memory.

* `Room.dimension`, `Room.range` — the number of elements of an array that is filled, or that counts
  up from zero.
* `NoRoom` — why there is no such array.
* `byteSizeText` — a number of bytes in binary units, with three digits.
-/

namespace PulseSequencer

/-- What an array holds. -/
inductive Element where
  | index
  | complex
  deriving DecidableEq, Repr

def Element.bytes : Element → Nat
  | .index => 8
  | .complex => 16

def Element.name : Element → String
  | .index => "int64"
  | .complex => "complex128"

/-- Why there is no array of a size. -/
inductive NoRoom where
  | negative
  | dimension
  | range
  | addresses
  | memory (count : Nat) (element : Element)
  deriving DecidableEq, Repr

/-- The units of sizes from `1024` bytes on. -/
def byteUnits : List String := ["KiB", "MiB", "GiB", "TiB", "PiB", "EiB"]

/-- The decimal `n / 10 ^ places`, with its point. -/
def pointedText (n places : Nat) : String :=
  let digits := Nat.toDigits 10 (n % Nat.pow 10 places)
  let fraction := List.replicate (places - digits.length) '0' ++ digits
  toString (n / Nat.pow 10 places) ++ "." ++ String.ofList (if places = 0 then [] else fraction)

/-- The quotient with three digits, or with all digits of its whole part if these are more. -/
def threeDigits (num den : Nat) : String :=
  if roundQuotient (num * 100) den < 1000 then pointedText (roundQuotient (num * 100) den) 2
  else if roundQuotient (num * 10) den < 1000 then pointedText (roundQuotient (num * 10) den) 1
  else pointedText (roundQuotient num den) 0

/-- A number of bytes, at least `1024`, in the largest unit in which it is not rounded below one. -/
def byteSizeText (bytes : Nat) : String :=
  let step := bytes.log2 / 10
  let step := if roundQuotient bytes (1 <<< (10 * step)) = 1024 then step + 1 else step
  threeDigits bytes (1 <<< (10 * step)) ++ " " ++ (byteUnits[step - 1]?).getD ""

def NoRoom.text : NoRoom → String
  | .negative => "negative dimensions are not allowed"
  | .dimension => "Maximum allowed dimension exceeded"
  | .range => "Maximum allowed size exceeded"
  | .addresses =>
    "array is too big; `arr.size * arr.dtype.itemsize` is larger than the maximum possible size."
  | .memory count e =>
    s!"Unable to allocate {byteSizeText (e.bytes * count)} for an array with shape ({count},) " ++
      s!"and data type {e.name}"

namespace Room

/-- Indices and numbers of bytes are less than this. -/
def indexBound : Nat := 0x8000000000000000

/-- The bytes of memory. -/
def memoryBytes : Nat := 0x10000000000

/-- The number of elements, if there is room for them. -/
def reserve (e : Element) (n : Nat) : Except NoRoom Nat :=
  if indexBound ≤ e.bytes * n then .error .addresses
  else if memoryBytes < e.bytes * n then .error (.memory n e)
  else .ok n

/-- The size of an array of `n` equal elements. -/
def dimension (e : Element) (n : Int) : Except NoRoom Nat :=
  if n < -(indexBound : Int) ∨ (indexBound : Int) ≤ n then .error .dimension
  else if n < 0 then .error .negative
  else reserve e n.toNat

/-- The size of an array that counts from zero up to `n`; it is empty if `n` is not positive, and at
the bound itself. -/
def range (n : Int) : Except NoRoom Nat :=
  if n < -(indexBound : Int) ∨ (indexBound : Int) < n then .error .range
  else if n ≤ 0 ∨ n = indexBound then .ok 0
  else reserve .index n.toNat

end Room

end PulseSequencer
