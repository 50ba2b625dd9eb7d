import PulseSequencer.Settings.Field
import PulseSequencer.Settings.IntegerText
import PulseSequencer.Yaml.Value

/-!
# Validation of settings

Settings are taken from plain data with some latitude: numbers and words count as Booleans, and whole
numbers in any spelling as integers. All complaints are collected: those on fields in field order,
then those on other keys in the order of the input.

* `Problem` — what can be wrong, with its code and wording.
* `Input`, `MemberKey` — what validation sees of a value and of its key.
* `toBool`, `toNcoSelect` — the value of a field.
* `Configuration.ofMembers`, `Configuration.assign`, `Configuration.ofJson`, `Configuration.ofYaml`.
-/

namespace PulseSequencer

inductive Problem where
  | boolParsing
  | boolType
  | intParsing
  | intParsingSize
  | intFromFloat
  | intType
  | finiteNumber
  | tooLarge
  | tooSmall
  | extraInput
  | keyType
  | noAttribute (name : String)
  | jsonInvalid
  | notAnObject
  deriving DecidableEq, Repr

namespace Problem

def code : Problem → String
  | .boolParsing => "bool_parsing"
  | .boolType => "bool_type"
  | .intParsing => "int_parsing"
  | .intParsingSize => "int_parsing_size"
  | .intFromFloat => "int_from_float"
  | .intType => "int_type"
  | .finiteNumber => "finite_number"
  | .tooLarge => "less_than_equal"
  | .tooSmall => "greater_than_equal"
  | .extraInput => "extra_forbidden"
  | .keyType => "invalid_key"
  | .noAttribute _ => "no_such_attribute"
  | .jsonInvalid => "json_invalid"
  | .notAnObject => "model_type"

/-- The wording of a problem; a text that is not JSON has none. -/
def message : Problem → Option String
  | .boolParsing => some "Input should be a valid boolean, unable to interpret input"
  | .boolType => some "Input should be a valid boolean"
  | .intParsing => some "Input should be a valid integer, unable to parse string as an integer"
  | .intParsingSize =>
    some "Unable to parse input string as an integer, exceeded maximum size"
  | .intFromFloat => some "Input should be a valid integer, got a number with a fractional part"
  | .intType => some "Input should be a valid integer"
  | .finiteNumber => some "Input should be a finite number"
  | .tooLarge => some "Input should be less than or equal to 15"
  | .tooSmall => some "Input should be greater than or equal to 0"
  | .extraInput => some "Extra inputs are not permitted"
  | .keyType => some "Keys should be strings"
  | .noAttribute name => some s!"Object has no attribute '{name}'"
  | .jsonInvalid => none
  | .notAnObject => some "Input should be an object"

end Problem

/-- What validation sees of a value. -/
inductive Input where
  | bool (b : Bool)
  | int (n : Int)
  | float (x : Float)
  | text (s : String)
  | other

/-- What validation sees of a key. One that is neither a string nor a small integer is known by how it is
shown. -/
inductive MemberKey where
  | name (s : String)
  | number (n : Int)
  | shown (text : String)
  deriving DecidableEq, Repr

/-- A problem and the keys that lead to it. -/
structure Complaint where
  location : List MemberKey
  problem : Problem
  deriving DecidableEq, Repr

/-- Whether an integer fits in 64 bits with a sign. -/
def fitsInt64 (n : Int) : Bool := -0x8000000000000000 ≤ n && n < 0x8000000000000000

/-- The integer that a float is equal to. -/
def wholeInt (x : Float) : Except Problem Int :=
  match Binary64.ofFloat x with
  | .finite negative m =>
    if m.floor * m.denominator ≠ m.numerator then .error .intFromFloat
    else
      let n := Binary64.signed negative m.floor
      if -0x8000000000000000 < n ∧ n < 0x8000000000000000 then .ok n
      else .error .intParsingSize
  | _ => .error .finiteNumber

def trueWords : List String := ["1", "true", "t", "yes", "y", "on"]

def falseWords : List String := ["0", "false", "f", "no", "n", "off"]

/-- Zero and one as Booleans. -/
def boolOfInt (n : Int) : Except Problem Bool :=
  if n = 0 then .ok false else if n = 1 then .ok true else .error .boolParsing

/-- The value of a Boolean field. -/
def toBool : Input → Except Problem Bool
  | .bool b => .ok b
  | .int n => if fitsInt64 n then boolOfInt n else .error .boolType
  | .float x =>
    match wholeInt x with
    | .ok n => boolOfInt n
    | .error _ => .error .boolType
  | .text s =>
    let word := String.ofList (s.toList.map Char.toLower)
    if trueWords.contains word then .ok true
    else if falseWords.contains word then .ok false
    else .error .boolParsing
  | .other => .error .boolType

/-- The value of an integer field. -/
def toInt : Input → Except Problem Int
  | .int n => .ok n
  | .bool b => .ok b.toInt
  | .float x => wholeInt x
  | .text s =>
    match IntegerText.read s with
    | .value n => .ok n
    | .tooLong => .error .intParsingSize
    | .malformed => .error .intParsing
  | .other => .error .intType

/-- The value of a field that selects oscillators. -/
def toNcoSelect (i : Input) : Except Problem (Fin 16) := do
  let n ← toInt i
  if h : n.toNat < 16 then
    if n < 0 then .error .tooSmall else .ok ⟨n.toNat, h⟩
  else .error .tooLarge

/-- Sets a field to a value. -/
def Settings.assign (s : Settings) (f : SettingsField) (i : Input) : Except Problem Settings :=
  match f with
  | .phaseByInstruction => do return { s with phaseByInstruction := ← toBool i }
  | .frequencyByInstruction => do return { s with frequencyByInstruction := ← toBool i }
  | .ncoSelect => do return { s with ncoSelect := ← toNcoSelect i }
  | .resetNcoSelect => do return { s with resetNcoSelect := ← toNcoSelect i }

def Json.input : Json → Input
  | .bool b => .bool b
  | .int n => .int n
  | .float x => .float x
  | .str s => .text s
  | _ => .other

def Yaml.Value.input : Yaml.Value → Input
  | .bool b => .bool b
  | .int n => .int n
  | .float x => .float x
  | .str s => .text s
  | _ => .other

/-- A key of a mapping. A Boolean is the number that it is equal to. -/
def Yaml.Value.memberKey : Yaml.Value → MemberKey
  | .str s => .name s
  | .int n => if fitsInt64 n then .number n else .shown (toString n)
  | .bool b => .number b.toInt
  | v => .shown v.keyText

namespace Configuration

/-- Sets a field explicitly. -/
def assignField (c : Configuration) (f : SettingsField) (i : Input) :
    Except Problem Configuration := do
  return ⟨← c.settings.assign f i, f :: c.explicit⟩

/-- Sets a field by name. A name that starts with an underscore is free for others to use, and is no
setting. -/
def assign (c : Configuration) (name : String) (i : Input) :
    Except (List Complaint) Configuration :=
  match SettingsField.ofName? name with
  | none =>
    if name.startsWith "_" then .ok c else .error [⟨[.name name], .noAttribute name⟩]
  | some f =>
    match c.assignField f i with
    | .ok c => .ok c
    | .error p => .error [⟨[.name name], p⟩]

/-- Takes one field from the members of an object, collecting complaints. -/
def takeField (members : List (MemberKey × Input)) (state : Configuration × List Complaint)
    (f : SettingsField) : Configuration × List Complaint :=
  match members.lookup (.name f.name) with
  | none => state
  | some i =>
    match state.1.assignField f i with
    | .ok c => (c, state.2)
    | .error p => (state.1, state.2 ++ [⟨[.name f.name], p⟩])

/-- What is wrong with a key that is no field. -/
def keyComplaint? (k : MemberKey) : Option Complaint :=
  match k with
  | .name s => if (SettingsField.ofName? s).isNone then some ⟨[k], .extraInput⟩ else none
  | _ => some ⟨[k], .keyType⟩

/-- The settings that an object describes; what is not given has its default. -/
def ofMembers (members : List (MemberKey × Input)) : Except (List Complaint) Configuration :=
  let (c, complaints) := SettingsField.all.foldl (takeField members) ({}, [])
  let others := members.filterMap fun m => keyComplaint? m.1
  if (complaints ++ others).isEmpty then .ok c else .error (complaints ++ others)

/-- The settings that the members of a JSON object describe. -/
def ofJsonMembers (members : List (String × Json)) : Except (List Complaint) Configuration :=
  ofMembers (members.map fun m => (.name m.1, m.2.input))

/-- The settings that the pairs of a YAML mapping describe. -/
def ofYamlPairs (pairs : List (Yaml.Value × Yaml.Value)) : Except (List Complaint) Configuration :=
  ofMembers (pairs.map fun p => (p.1.memberKey, p.2.input))

/-- How deep a JSON text may be nested, and how many digits its integers may have. -/
def jsonLimits : Json.Limits := ⟨some 200, some 4300⟩

/-- The settings of a JSON text. -/
def ofJson (text : String) : Except (List Complaint) Configuration :=
  match Json.parseWithin? jsonLimits text with
  | some (.obj members) => ofJsonMembers members
  | some _ => .error [⟨[], .notAnObject⟩]
  | none => .error [⟨[], .jsonInvalid⟩]

end Configuration

/-- What a YAML text holds. -/
inductive YamlContent where
  | fault (cause : Yaml.Fault)
  | invalid (complaints : List Complaint)
  | plain (value : Json)
  | settings (c : Configuration)

namespace YamlContent

/-- The settings that a tagged value describes. -/
def taggedSettings : Yaml.Value → Except YamlContent Configuration
  | .map pairs => (Configuration.ofYamlPairs pairs).mapError .invalid
  | _ => .error (.fault .unreadable)

/-- The content of a value: settings if it is tagged as such, else plain data, of which settings are no
part. -/
def ofValue (v : Yaml.Value) : YamlContent :=
  match (v.behindTag Configuration.yamlTag).mapM taggedSettings, v with
  | .error failure, _ => failure
  | .ok [], v =>
    match v.plain with
    | .ok j => .plain j
    | .error cause => .fault cause
  | .ok (c :: cs), .tagged tag _ =>
    if tag = Configuration.yamlTag then .settings ((c :: cs).getLast (List.cons_ne_nil c cs))
    else .fault (.noPlainForm "CompilerSettings")
  | .ok (_ :: _), _ => .fault (.noPlainForm "CompilerSettings")

end YamlContent

/-- Reads a YAML text. -/
def Configuration.ofYaml (text : String) : YamlContent :=
  match Yaml.load [yamlTag] text with
  | .ok v => .ofValue v
  | .error cause => .fault cause

end PulseSequencer
