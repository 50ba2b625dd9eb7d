import PulseSequencer.Text.Quoted

/-!
# Plain data

`Json` is what a JSON text denotes. Integers and floats are kept apart, and the members of an object
keep their order.

* `Json.render` — the text of a value in ASCII, in one of two styles of separators.
-/

namespace PulseSequencer

inductive Json where
  | null
  | bool (b : Bool)
  | int (n : Int)
  | float (x : Float)
  | str (s : String)
  | arr (items : List Json)
  | obj (members : List (String × Json))

namespace Json

/-- The member of an object under a name. -/
def find? (j : Json) (name : String) : Option Json :=
  match j with
  | .obj members => (members.find? (·.1 == name)).map (·.2)
  | _ => none

/-- What stands between the parts of a text. -/
structure Separators where
  item : String
  member : String

/-- Without blanks. -/
def Separators.compact : Separators := ⟨",", ":"⟩

/-- With a blank behind commas and colons. -/
def Separators.spaced : Separators := ⟨", ", ": "⟩

/-- A unit of sixteen bits by number. -/
def unitEscape (n : Nat) : List Char := backslash :: 'u' :: padZeros 4 (hexDigits n)

/-- A character of a string. -/
def escapedChar (c : Char) : List Char :=
  if c = doubleQuote ∨ c = backslash then [backslash, c]
  else if c = '\n' then [backslash, 'n']
  else if c = '\r' then [backslash, 'r']
  else if c = '\t' then [backslash, 't']
  else if c = '\x08' then [backslash, 'b']
  else if c = '\x0c' then [backslash, 'f']
  else if ' ' ≤ c ∧ c.toNat < 127 then [c]
  else if c.toNat < 0x10000 then unitEscape c.toNat
  else
    let n := c.toNat - 0x10000
    unitEscape (0xd800 + n / 0x400) ++ unitEscape (0xdc00 + n % 0x400)

def stringText (s : String) : String :=
  String.ofList (doubleQuote :: (s.toList.flatMap escapedChar ++ [doubleQuote]))

def floatLiteral (x : Float) : String :=
  match Binary64.ofFloat x with
  | .nan => "NaN"
  | .infinite negative => if negative then "-Infinity" else "Infinity"
  | .finite _ _ => floatText x

mutual

/-- The text of a value. -/
def render (sep : Separators) : Json → String
  | .null => "null"
  | .bool b => if b then "true" else "false"
  | .int n => toString n
  | .float x => floatLiteral x
  | .str s => stringText s
  | .arr items => "[" ++ sep.item.intercalate (renderItems sep items) ++ "]"
  | .obj members => "\x7b" ++ sep.item.intercalate (renderMembers sep members) ++ "\x7d"

def renderItems (sep : Separators) : List Json → List String
  | [] => []
  | j :: js => render sep j :: renderItems sep js

def renderMembers (sep : Separators) : List (String × Json) → List String
  | [] => []
  | (name, j) :: ms => (stringText name ++ sep.member ++ render sep j) :: renderMembers sep ms

end

end Json

end PulseSequencer
