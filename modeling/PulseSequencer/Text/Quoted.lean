import PulseSequencer.Text.Number
import PulseSequencer.Text.Printable

/-!
# Quoted text

`quoted s` writes a text between quotes as messages show it. Single quotes are used unless the text
has a single quote and no double quote. The quote in use and the backslash are escaped, line feed,
carriage return and tab are written by name, and other characters without a printed form by number.
-/

namespace PulseSequencer

def singleQuote : Char := '\x27'

def doubleQuote : Char := '\x22'

def backslash : Char := '\x5c'

/-- The quote that surrounds a text. -/
def quoteFor (s : List Char) : Char :=
  if s.contains singleQuote && !s.contains doubleQuote then doubleQuote else singleQuote

/-- The escape of a character by its number. -/
def numericEscape (c : Char) : List Char :=
  let digits := hexDigits c.toNat
  if c.toNat ≤ 0xff then backslash :: 'x' :: padZeros 2 digits
  else if c.toNat ≤ 0xffff then backslash :: 'u' :: padZeros 4 digits
  else backslash :: 'U' :: padZeros 8 digits

/-- One character between quotes. -/
def quotedChar (quote c : Char) : List Char :=
  if c = quote ∨ c = backslash then [backslash, c]
  else if c = '\n' then [backslash, 'n']
  else if c = '\r' then [backslash, 'r']
  else if c = '\t' then [backslash, 't']
  else if isPrintable c then [c]
  else numericEscape c

/-- A text between quotes. -/
def quoted (s : String) : String :=
  let cs := s.toList
  let quote := quoteFor cs
  String.ofList (quote :: (cs.flatMap (quotedChar quote) ++ [quote]))

/-- Texts between brackets, with commas. -/
def bracketed (items : List String) : String := "[" ++ ", ".intercalate items ++ "]"

end PulseSequencer
