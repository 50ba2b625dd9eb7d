import PulseSequencer.Yaml.Lexer

/-!
# Nodes of a YAML document

Nodes are scalars, sequences and mappings with their tags; an alias is the node it stands for.

* `Node` — a node.
* `Parser` — reads nodes from tokens. A comment moves from a mark to the token behind it.
* `document?` — the single document of a text, if it has one.
-/

namespace PulseSequencer.Yaml

/-- A node. A scalar without a tag has the type that its text resolves to, unless it was quoted. An alias
inside the node that it stands for has no content. -/
inductive Node where
  | scalar (tag : Option String) (resolves : Bool) (text : String) (isAnchored : Bool)
  | sequence (tag : Option String) (items : List Node)
  | mapping (tag : Option String) (pairs : List (Node × Node))
  | enclosing

/-- A scalar without content. -/
def Node.empty : Node := .scalar none true "" false

/-- What a parser works on. An anchor has no node while that is being read. -/
structure Stream where
  tokens : List Token
  anchors : List (String × Option Node) := []
  handles : List (String × String) := []

abbrev Parser := StateT Stream (Except Fault)

namespace Parser

/-- The next token, which stays. -/
def peek : Parser Token := do
  match (← get).tokens with
  | t :: _ =>
    match t.kind with
    | .failed f => throw f
    | _ => return t
  | [] => return ⟨.streamEnd, ⟨0, 0⟩, 0, {}⟩

def next : Parser Kind := do return (← peek).kind

/-- Takes the next token. -/
def take : Parser Token := do
  let t ← peek
  modify fun s => { s with tokens := s.tokens.drop 1 }
  return t

/-- Whether the next token is one of these. -/
def sees (kinds : List Kind) : Parser Bool := do return kinds.contains (← next)

def refuse {α : Type} : Parser α := throw .unreadable

/-- Changes the comments by the next token. -/
def remark (f : Remarks → Remarks) : Parser Unit :=
  modify fun s =>
    match s.tokens with
    | t :: ts => { s with tokens := { t with remarks := f t.remarks } :: ts }
    | [] => s

/-- Moves the comments by a token to the next one, where no others may stand in their place. They stay
before the end and before a document. -/
def moveRemarks (t : Token) (isWide : Bool) : Parser Unit := do
  let n ← peek
  if !t.remarks.isEmpty && n.kind ≠ .streamEnd && n.kind ≠ .documentStart then
    if n.remarks.isEmpty then remark fun _ => { t.remarks with isWide := isWide || t.remarks.isWide }
    else if t.remarks.overlaps n.remarks then throw (.overlappingComments t.remarks n.remarks)
    else remark fun r => t.remarks.merge r

/-- The tag that a handle and a suffix stand for. -/
def expandTag (handle : Option String) (suffix : String) : Parser String := do
  match handle with
  | none => return suffix
  | some h =>
    match (← get).handles.lookup h with
    | some expansion => return expansion ++ suffix
    | none => refuse

/-- What may stand before a node. -/
structure Properties where
  anchor : Option String := none
  tag : Option String := none

def Properties.isEmpty (p : Properties) : Bool := p.anchor.isNone && p.tag.isNone

/-- The tag of a collection; a mark without a name stands for none. -/
def Properties.collectionTag (p : Properties) : Option String := p.tag.filter (· ≠ "!")

/-- The properties of a node. Behind a tag comments in one place are no fault. -/
def properties : Parser Properties := do
  let t ← peek
  match t.kind with
  | .anchor name =>
    let t ← take
    moveRemarks t false
    match ← next with
    | .tag handle suffix =>
      let _ ← take
      return ⟨some name, some (← expandTag handle suffix)⟩
    | _ => return ⟨some name, none⟩
  | .tag handle suffix =>
    let t ← take
    if !t.remarks.overlaps (← peek).remarks then moveRemarks t false
    match ← next with
    | .anchor name =>
      let _ ← take
      return ⟨some name, some (← expandTag handle suffix)⟩
    | _ => return ⟨none, some (← expandTag handle suffix)⟩
  | _ => return {}

/-- Says which node an anchor stands for. -/
def bind (anchor : Option String) (node : Option Node) : Parser Unit :=
  match anchor with
  | some name => modify fun s => { s with anchors := (name, node) :: s.anchors }
  | none => pure ()

/-- The node that an alias stands for. -/
def aliased (name : String) : Parser Node := do
  match (← get).anchors.lookup name with
  | some (some node) => return node
  | some none => return .enclosing
  | none => refuse

/-- Where a node stands. -/
inductive Place where
  | flow
  | block
  | blockValue
  deriving DecidableEq

/-- A scalar behind its properties. -/
def scalarNode (p : Properties) (text : List Char) (isPlain : Bool) : Node :=
  let s := String.ofList text
  match p.tag with
  | none => .scalar none isPlain s p.anchor.isSome
  | some "!" => .scalar none true s p.anchor.isSome
  | some tag => .scalar (some tag) false s p.anchor.isSome

mutual

/-- A node. Each call takes a token or is followed by one that does, so that their number bounds the
calls. -/
def node (place : Place) : Nat → Parser Node
  | 0 => refuse
  | fuel + 1 => do
    let t ← peek
    match t.kind with
    | .alias name =>
      let t ← take
      moveRemarks t false
      aliased name
    | _ =>
      let p ← properties
      let result ← content place p fuel
      bind p.anchor (some result)
      return result

/-- The content of a node behind its properties. -/
def content (place : Place) (p : Properties) : Nat → Parser Node
  | 0 => refuse
  | fuel + 1 => do
    let t ← peek
    let tag := p.collectionTag
    match t.kind with
    | .blockEntry =>
      if place = .blockValue then
        remark fun r => { r with behind := none }
        bind p.anchor none
        return .sequence tag (← indentless fuel)
      else emptyContent p
    | .scalar text isPlain =>
      let _ ← take
      return scalarNode p text isPlain
    | .flowSequenceStart =>
      let _ ← take
      bind p.anchor none
      return .sequence tag (← flowItems true fuel)
    | .flowMappingStart =>
      let _ ← take
      bind p.anchor none
      return .mapping tag (← flowPairs true fuel)
    | .blockSequenceStart =>
      if place = .flow then emptyContent p
      else
        let _ ← take
        bind p.anchor none
        return .sequence tag (← blockItems fuel)
    | .blockMappingStart =>
      if place = .flow then emptyContent p
      else
        let _ ← take
        bind p.anchor none
        return .mapping tag (← blockPairs fuel)
    | _ => emptyContent p
where
  /-- No content is allowed behind properties. -/
  emptyContent (p : Properties) : Parser Node :=
    if p.isEmpty then refuse else return scalarNode p [] true

/-- A node, unless one of the given tokens stands in its place. -/
def optionalNode (place : Place) (ends : List Kind) : Nat → Parser Node
  | 0 => refuse
  | fuel + 1 => do if ← sees ends then return .empty else node place fuel

/-- The items of a block sequence, up to its end. -/
def blockItems : Nat → Parser (List Node)
  | 0 => refuse
  | fuel + 1 => do
    match ← next with
    | .blockEntry =>
      moveRemarks (← take) false
      let item ← optionalNode .block [.blockEntry, .blockEnd] fuel
      return item :: (← blockItems fuel)
    | .blockEnd =>
      let _ ← take
      return []
    | _ => refuse

/-- The items of a sequence at the indentation of its key. -/
def indentless : Nat → Parser (List Node)
  | 0 => refuse
  | fuel + 1 => do
    match ← next with
    | .blockEntry =>
      moveRemarks (← take) false
      let item ← optionalNode .block [.blockEntry, .key, .value, .blockEnd] fuel
      return item :: (← indentless fuel)
    | _ => return []

/-- The pairs of a block mapping, up to its end. -/
def blockPairs : Nat → Parser (List (Node × Node))
  | 0 => refuse
  | fuel + 1 => do
    match ← next with
    | .key =>
      moveRemarks (← take) false
      let key ← optionalNode .blockValue [.key, .value, .blockEnd] fuel
      let value ← blockMappingValue fuel
      return (key, value) :: (← blockPairs fuel)
    | .value =>
      let value ← blockMappingValue fuel
      return (.empty, value) :: (← blockPairs fuel)
    | .blockEnd =>
      moveRemarks (← take) false
      return []
    | _ => refuse

/-- The value of a key in a block mapping. -/
def blockMappingValue : Nat → Parser Node
  | 0 => refuse
  | fuel + 1 => do
    if (← next) ≠ .value then return .empty
    let t ← take
    if !(← sees [.key]) then moveRemarks t !(← sees [.value])
    if ← sees [.key, .value, .blockEnd] then
      if t.remarks.isEmpty || !(← sees [.key]) then remark fun r => { r with behind := none }
      return .empty
    else node .blockValue fuel

/-- The items of a sequence in brackets; a pair is a mapping of its own. -/
def flowItems (isFirst : Bool) : Nat → Parser (List Node)
  | 0 => refuse
  | fuel + 1 => do
    if ← sees [.flowSequenceEnd] then
      let _ ← take
      return []
    if !isFirst then
      if ← sees [.flowEntry] then
        let _ ← take
      else refuse
    match ← next with
    | .key =>
      let _ ← take
      let key ← optionalNode .flow [.value, .flowEntry, .flowSequenceEnd] fuel
      let value ← flowValue .flowSequenceEnd fuel
      return .mapping none [(key, value)] :: (← flowItems false fuel)
    | .flowSequenceEnd =>
      let _ ← take
      return []
    | _ =>
      let item ← node .flow fuel
      return item :: (← flowItems false fuel)

/-- The pairs of a mapping in braces. -/
def flowPairs (isFirst : Bool) : Nat → Parser (List (Node × Node))
  | 0 => refuse
  | fuel + 1 => do
    if ← sees [.flowMappingEnd] then
      let _ ← take
      return []
    if !isFirst then
      if ← sees [.flowEntry] then
        let _ ← take
      else refuse
    match ← next with
    | .key =>
      let _ ← take
      let key ← optionalNode .flow [.value, .flowEntry, .flowMappingEnd] fuel
      let value ← flowValue .flowMappingEnd fuel
      return (key, value) :: (← flowPairs false fuel)
    | .value =>
      let value ← flowValue .flowMappingEnd fuel
      return (.empty, value) :: (← flowPairs false fuel)
    | .flowMappingEnd =>
      let _ ← take
      return []
    | _ =>
      let key ← node .flow fuel
      return (key, .empty) :: (← flowPairs false fuel)

/-- The value of a key inside a collection that ends with the given token. -/
def flowValue (ends : Kind) : Nat → Parser Node
  | 0 => refuse
  | fuel + 1 => do
    if (← next) = .value then
      let _ ← take
      optionalNode .flow [.flowEntry, ends] fuel
    else return .empty

end

/-- The handles of tags that every document has. -/
def defaultHandles : List (String × String) := [("!", "!"), ("!!", "tag:yaml.org,2002:")]

/-- The directives before a document; its handles come before those that every document has. -/
def directives : Nat → Bool → List (String × String) → Parser Unit
  | 0, _, _ => refuse
  | fuel + 1, versioned, handles => do
    match ← next with
    | .directive d =>
      let _ ← take
      match d with
      | .version major _ =>
        if versioned || major ≠ 1 then refuse
        directives fuel true handles
      | .handle name expansion =>
        if (handles.lookup name).isSome then refuse
        directives fuel versioned ((name, expansion) :: handles)
      | .other => directives fuel versioned handles
    | _ => modify fun s => { s with handles := handles ++ defaultHandles }

/-- A document with its marks. A text holds one at most. -/
def singleDocument (fuel : Nat) : Parser (Option Node) := do
  let hasMark := match ← next with
    | .directive _ | .documentStart => true
    | _ => false
  if (← next) = .streamEnd then return none
  directives fuel false []
  let root ← if hasMark then do
      if (← next) ≠ .documentStart then refuse
      let _ ← take
      match ← next with
      | .directive _ | .documentStart | .documentEnd | .streamEnd => pure .empty
      | _ => node .block fuel
    else node .block fuel
  if (← next) = .documentEnd then
    let t ← take
    let n ← peek
    if n.kind ≠ .streamEnd && n.start.line = t.endLine then refuse
  if (← next) ≠ .streamEnd then refuse
  return some root

end Parser

/-- The root of the single document of a text; nothing if the text holds none. -/
def document? (text : String) : Except Fault (Option Node) :=
  match Cursor.ofText? text with
  | none => .error .unreadable
  | some c =>
    let ts := tokens c
    (Parser.singleDocument (4 * ts.length + 4)).run' { tokens := ts }

end PulseSequencer.Yaml
