import PulseSequencer.Shortest
import PulseSequencer.Yaml.Node
import PulseSequencer.Yaml.Scalar

/-!
# The values of YAML nodes

* `Value` — what a node stands for. Keys of mappings are values too.
* `Value.same` — whether two keys are one: numbers by what they are worth, Booleans as zero and one.
* `Node.value` — the value of a node. A key may not be repeated, and `<<` adds the pairs of other
  mappings to those of its own.
* `load` — the value of a text.
* `Value.plain`, `Value.keyText` — a value as JSON, and as complaints show it.
-/

namespace PulseSequencer.Yaml

/-- What a node stands for. A tag that is no type stays with its value, and so does the text of a scalar
that has no value of its own. -/
inductive Value where
  | null
  | bool (b : Bool)
  | int (n : Int)
  | float (x : Float)
  | str (s : String)
  | moment (m : Moment)
  | raw (text : String)
  | seq (items : List Value)
  | map (pairs : List (Value × Value))
  | tagged (tag : String) (v : Value)

namespace Value

/-- What a number is worth. -/
inductive Worth where
  | quotient (negative : Bool) (num den : Nat)
  | infinite (negative : Bool)
  | undefined

def Worth.ofFloat (x : Float) : Worth :=
  match Binary64.ofFloat x with
  | .nan => .undefined
  | .infinite negative => .infinite negative
  | .finite negative m => .quotient negative m.numerator m.denominator

def Worth.same : Worth → Worth → Bool
  | .quotient n a b, .quotient m c d => a * d == c * b && (n == m || a == 0)
  | .infinite n, .infinite m => n == m
  | .undefined, .undefined => true
  | _, _ => false

def worth? : Value → Option Worth
  | .bool b => some (.quotient false b.toNat 1)
  | .int n => some (.quotient (n < 0) n.natAbs 1)
  | .float x => some (.ofFloat x)
  | _ => none

mutual

/-- Whether two keys are one. -/
def same : Value → Value → Bool
  | .null, .null => true
  | .str s, .str t => s == t
  | .moment m, .moment n => m == n
  | .seq xs, .seq ys => sameItems xs ys
  | .map ps, .map qs => samePairs ps qs
  | v, w =>
    match v.worth?, w.worth? with
    | some a, some b => a.same b
    | _, _ => false

def sameItems : List Value → List Value → Bool
  | [], [] => true
  | x :: xs, y :: ys => same x y && sameItems xs ys
  | _, _ => false

def samePairs : List (Value × Value) → List (Value × Value) → Bool
  | [], [] => true
  | (k, v) :: ps, (l, w) :: qs => same k l && same v w && samePairs ps qs
  | _, _ => false

end

/-- The pairs of a mapping, also behind a tag. -/
def pairs? : Value → Option (List (Value × Value))
  | .map ps => some ps
  | .tagged _ v => pairs? v
  | _ => none

/-- The mappings that a merge mark stands before. -/
def mergeSources? : Value → Option (List (List (Value × Value)))
  | .seq items => items.mapM pairs?
  | v => v.pairs?.map fun ps => [ps]

/-- Adds the pairs whose keys are new. -/
def mergePairs (own others : List (Value × Value)) : List (Value × Value) :=
  others.foldl (fun ps p => if ps.any fun q => q.1.same p.1 then ps else ps ++ [p]) own

end Value

/-- The type of a scalar: that of its tag, or what its text resolves to. -/
def scalarType (tag : Option String) (resolves : Bool) (text : String) : ScalarType :=
  match tag with
  | none => if resolves then .ofText text else .str
  | some tag => .ofTag tag

/-- The value of a scalar. A Boolean with an anchor is kept as a number. -/
def scalarValue (type : ScalarType) (text : String) (isAnchored : Bool) : Except Fault Value := do
  match type with
  | .null => return .null
  | .bool =>
    let b ← boolOf text
    return if isAnchored then .int b.toInt else .bool b
  | .int => return .int (← integerOf text)
  | .float => return .float (← floatOf text)
  | .moment =>
    match (Moment.parse? text).map Moment.check with
    | some (.ok m) => return .moment m
    | some (.error cause) => throw (.badDate cause)
    | none => throw .unreadable
  | .str => return .str text
  | .mergeMark | .defaultMark => return .raw text
  | .other tag => return .tagged tag (.raw text)

/-- The names of types that only scalars have. -/
def scalarTypes : List String := ["null", "bool", "int", "float", "timestamp", "str"]

/-- A collection of a kind behind a tag. Behind a tag of another kind it cannot be read, and what is wrong
behind a tag that says nothing is not told. -/
def withTag (kind : String) (told : List String) (tag : Option String) (v : Except Fault Value) :
    Except Fault Value :=
  match tag with
  | none => v
  | some tag =>
    if tag = commonTag ++ kind then v
    else if told.contains tag then v.map (.tagged tag)
    else if ("seq" :: "map" :: scalarTypes).any fun name => tag = commonTag ++ name then
      .error .unreadable
    else
      match v with
      | .ok v => .ok (.tagged tag v)
      | .error _ => .error .unreadable

namespace Node

def isMergeMark : Node → Bool
  | .scalar tag resolves text _ => scalarType tag resolves text = .mergeMark
  | _ => false

mutual

/-- The value of a node; `told` are the tags of collections whose faults are told. -/
def value (told : List String) : Node → Except Fault Value
  | .scalar tag resolves text isAnchored =>
    scalarValue (scalarType tag resolves text) text isAnchored
  | .sequence tag items => withTag "seq" told tag do return .seq (← values told items)
  | .mapping tag pairs => withTag "map" told tag do
    let merged ← mergedPairs told [] pairs
    let own ← ownPairs told [] pairs
    return .map (merged.foldl Value.mergePairs own)
  | .enclosing => .ok .null

def values (told : List String) : List Node → Except Fault (List Value)
  | [] => .ok []
  | n :: ns => do
    let v ← n.value told
    return v :: (← values told ns)

/-- The mappings behind a merge mark, of which there may be one. -/
def mergedPairs (told : List String) (found : List (List (Value × Value))) :
    List (Node × Node) → Except Fault (List (List (Value × Value)))
  | [] => .ok found
  | (k, n) :: ps => do
    if k.isMergeMark then
      if !found.isEmpty then throw .unreadable
      match (← n.value told).mergeSources? with
      | some sources => mergedPairs told sources ps
      | none => throw .unreadable
    else mergedPairs told found ps

/-- The pairs of a mapping behind those given, without the merge mark. -/
def ownPairs (told : List String) (done : List (Value × Value)) :
    List (Node × Node) → Except Fault (List (Value × Value))
  | [] => .ok done
  | (k, n) :: ps => do
    if k.isMergeMark then ownPairs told done ps
    else
      let key := match ← k.value told with
        | .raw text => .str text
        | key => key
      let v ← n.value told
      if done.any fun p => p.1.same key then throw .unreadable
      ownPairs told (done ++ [(key, v)]) ps

end

end Node

/-- The value of a text; a text without a document is null. -/
def load (told : List String) (text : String) : Except Fault Value := do
  match ← document? text with
  | some root => root.value told
  | none => return .null

namespace Value

mutual

/-- The values behind a tag, inner ones first. -/
def behindTag (tag : String) : Value → List Value
  | .tagged t v => behindTag tag v ++ if t = tag then [v] else []
  | .seq items => behindTagItems tag items
  | .map pairs => behindTagPairs tag pairs
  | _ => []

def behindTagItems (tag : String) : List Value → List Value
  | [] => []
  | v :: vs => behindTag tag v ++ behindTagItems tag vs

def behindTagPairs (tag : String) : List (Value × Value) → List Value
  | [] => []
  | (k, v) :: ps => behindTag tag k ++ behindTag tag v ++ behindTagPairs tag ps

end

mutual

/-- A key as complaints show it. A sequence stands in parentheses, with a comma even behind a single
item. -/
def keyText : Value → String
  | .null => "None"
  | .bool b => if b then "True" else "False"
  | .int n => toString n
  | .float x => floatText x
  | .str s => quoted s
  | .moment m => m.text
  | .raw text => text
  | .seq [v] => "(" ++ keyText v ++ ",)"
  | .seq items => "(" ++ ", ".intercalate (keyTexts items) ++ ")"
  | .map pairs => "\x7b" ++ ", ".intercalate (keyTextPairs pairs) ++ "\x7d"
  | .tagged _ v => keyText v

def keyTexts : List Value → List String
  | [] => []
  | v :: vs => keyText v :: keyTexts vs

def keyTextPairs : List (Value × Value) → List String
  | [] => []
  | (k, v) :: ps => (keyText k ++ ": " ++ keyText v) :: keyTextPairs ps

end

/-- A key as the name of a member. -/
def memberName : Value → Except Fault String
  | .null => .ok "null"
  | .bool b => .ok (if b then "true" else "false")
  | .int n => .ok (toString n)
  | .float x => .ok (floatText x)
  | .str s => .ok s
  | .moment m => .error (.noPlainKey m.kind)
  | .raw _ | .tagged .. => .error (.noPlainKey "TaggedScalar")
  | .seq _ => .error (.noPlainKey "CommentedKeySeq")
  | .map _ => .error (.noPlainKey "CommentedKeyMap")

mutual

/-- A value as JSON. Of members with one name the last counts. -/
def plain : Value → Except Fault Json
  | .null => .ok .null
  | .bool b => .ok (.bool b)
  | .int n => .ok (.int n)
  | .float x => .ok (.float x)
  | .str s => .ok (.str s)
  | .moment m => .error (.noPlainForm m.kind)
  | .raw _ => .error (.noPlainForm "TaggedScalar")
  | .seq items => do return .arr (← plainItems items)
  | .map pairs => do return .obj (Table.ofList (← plainPairs pairs)).entries
  | .tagged _ v => plain v

def plainItems : List Value → Except Fault (List Json)
  | [] => .ok []
  | v :: vs => do
    let j ← plain v
    return j :: (← plainItems vs)

def plainPairs : List (Value × Value) → Except Fault (List (String × Json))
  | [] => .ok []
  | (k, v) :: ps => do
    let name ← k.memberName
    let j ← plain v
    return (name, j) :: (← plainPairs ps)

end

end Value

end PulseSequencer.Yaml
