import PulseSequencer.Yaml.Token

/-!
# Tags, anchors and directives

* `tagProperty` — a tag: its handle, if it has one, and its suffix.
* `anchorName` — the name of an anchor or an alias.
* `directiveLine` — a directive and the place behind its line.
-/

namespace PulseSequencer.Yaml

/-- Characters of handles. -/
def isHandleChar (c : Char) : Bool := c.isAlphanum || c = '-' || c = '_'

/-- Characters of the names of tags. -/
def isUriChar (c : Char) : Bool :=
  c.isAlphanum || "-;/?:@&=+$,_.!~*'()[]%#".toList.contains c

/-- The bytes of escapes from here. -/
def uriBytes : Nat → Cursor → Except Fault (List UInt8 × Cursor)
  | 0, c => .ok ([], c)
  | fuel + 1, c =>
    if c.peek = some '%' then
      let digits := c.next.rest.take 2
      match readHexDigits? digits with
      | some n =>
        if digits.length < 2 then .error .unreadable
        else do
          let (bytes, c) ← uriBytes fuel (c.skip 3)
          return (UInt8.ofNat n :: bytes, c)
      | none => .error .unreadable
    else .ok ([], c)

/-- The characters of the name of a tag from here, its escapes read as text. -/
def uriChars : Nat → Cursor → Except Fault (List Char × Cursor)
  | 0, c => .ok ([], c)
  | fuel + 1, c =>
    match c.peek with
    | some '%' => do
      let (bytes, c) ← uriBytes (c.rest.length + 1) c
      match String.fromUTF8? (ByteArray.mk bytes.toArray) with
      | none => .error .unreadable
      | some s => do
        let (cs, c) ← uriChars fuel c
        return (s.toList ++ cs, c)
    | some ch =>
      if isUriChar ch then do
        let (cs, c) ← uriChars fuel c.next
        return (ch :: cs, c)
      else .ok ([], c)
    | none => .ok ([], c)

/-- The name of a tag, which may not be empty. -/
def uri (c : Cursor) : Except Fault (String × Cursor) := do
  let (cs, d) ← uriChars (c.rest.length + 1) c
  if d.index = c.index then throw .unreadable
  return (String.ofList cs, d)

/-- A handle: a name between exclamation marks, or one of them before a blank. -/
def handle (c : Cursor) : Except Fault (String × Cursor) :=
  if c.peek ≠ some '!' then .error .unreadable
  else if c.peekAt 1 = some ' ' then .ok ("!", c.next)
  else
    let (name, d) := c.next.span isHandleChar
    if d.peek = some '!' then .ok (String.ofList ('!' :: name ++ ['!']), d.next)
    else .error .unreadable

/-- A tag; it ends before a blank or at the end of its line. -/
def tagProperty (c : Cursor) : Except Fault (Option String × String × Cursor) := do
  let (short, c) := if c.peekAt 1 = some '!' then ("!!", c.next) else ("!", c)
  let (name, suffix, c) ←
    if c.peekAt 1 = some '<' then do
      let (suffix, c) ← uri (c.skip 2)
      if c.peek ≠ some '>' then throw .unreadable
      pure ((none : Option String), suffix, c.next)
    else if endsWord (c.peekAt 1) then pure (none, short, c.next)
    else do
      let word := c.next.rest.takeWhile fun ch => !endsName (some ch)
      let (name, c) ← if word.contains '!' then handle c else pure (short, c.next)
      let (suffix, c) ← uri c
      pure (some name, suffix, c)
  if !endsName c.peek then throw .unreadable
  return (name, suffix, c)

/-- Characters of the names of anchors. -/
def isAnchorChar (c : Char) : Bool :=
  let n := c.toNat
  !([',', '[', ']', '\x7b', '\x7d'].contains c) &&
    ((0x21 ≤ n && n ≤ 0x7e) || (0xa0 ≤ n && n ≤ 0xd7ff) ||
      (0xe000 ≤ n && n ≤ 0xfffd && n != 0xfeff) || 0x10000 ≤ n)

/-- What may stand behind the name of an anchor. -/
def endsAnchor (ch : Option Char) : Bool :=
  endsWord ch || ch.any fun c =>
    ['?', ':', ',', '[', ']', '\x7b', '\x7d', '%', '@', '\x60'].contains c

/-- The name of an anchor or an alias, from behind its mark. -/
def anchorName (c : Cursor) : Except Fault (String × Cursor) :=
  let (name, c) := c.span isAnchorChar
  if name.isEmpty || !endsAnchor c.peek then .error .unreadable
  else .ok (String.ofList name, c)

/-- A number of a version. -/
def versionNumber (c : Cursor) : Except Fault (Nat × Cursor) :=
  let (digits, c) := c.span Char.isDigit
  if digits.isEmpty then .error .unreadable
  else .ok (digitsValue digits, c)

/-- The version that a document names. -/
def versionDirective (c : Cursor) : Except Fault (Directive × Cursor) := do
  let (major, c) ← versionNumber (c.skipWhile (· = ' '))
  if c.peek ≠ some '.' then throw .unreadable
  let (minor, c) ← versionNumber c.next
  if !endsName c.peek then throw .unreadable
  return (.version major minor, c)

/-- The expansion of a handle. -/
def handleDirective (c : Cursor) : Except Fault (Directive × Cursor) := do
  let (name, c) ← handle (c.skipWhile (· = ' '))
  if c.peek ≠ some ' ' then throw .unreadable
  let (expansion, c) ← uri (c.skipWhile (· = ' '))
  if !endsName c.peek then throw .unreadable
  return (.handle name expansion, c)

/-- A directive and the place behind its line. -/
def directiveLine (c : Cursor) : Except Fault (Directive × Cursor) := do
  let (name, c) := c.next.span fun ch => isHandleChar ch || ch = ':' || ch = '.'
  if name.isEmpty || !endsName c.peek then throw .unreadable
  let (d, c) ← match String.ofList name with
    | "YAML" => versionDirective c
    | "TAG" => handleDirective c
    | _ => pure (.other, c.skipWhile (!isBreak ·))
  let c := c.skipWhile (· = ' ')
  let c := if c.peek = some '#' then c.skipWhile (!isBreak ·) else c
  if !endsLine c.peek then throw .unreadable
  return (d, (c.takeBreak?.map (·.2)).getD c)

end PulseSequencer.Yaml
