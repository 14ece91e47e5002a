import SolverClient.Text.Numeral
import SolverClient.Yaml.Place

/-!
# Anchors, tags and directives

What may stand before a node: an anchor, under which an alias finds the node, and a tag, which names its type. A tag
starts with a handle, and the directives before a document say what a handle stands for.
-/

namespace SolverClient.Yaml

open SolverClient.Text

/-- The characters of names of anchors, handles and directives. -/
def isNameChar (c : Char) : Bool := c.isAlphanum || c == '_' || c == '-'

/-- A name after the mark of an anchor or an alias, and the place after it. -/
def readName (p : Place) : Option (String × Place) :=
  let cs := p.rest.drop 1
  let name := cs.takeWhile isNameChar
  let rest := cs.dropWhile isNameChar
  if name.isEmpty || !(endsWord rest || rest.head?.any "?:,]\x7d%@\x60".toList.contains) then none
  else some (String.ofList name, p.skip (1 + name.length))

/-! ## Tags -/

/-- A tag as it is written. The handle is empty if the suffix is the whole tag. -/
structure Tag where
  handle : String
  suffix : String
  deriving DecidableEq

/-- An octet in hexadecimal after a percent sign. -/
def takeOctet : List Char → Option (Nat × List Char)
  | '%' :: a :: b :: cs => do some (16 * (← hexValue a) + (← hexValue b), cs)
  | _ => none

/-- The number of octets after the first one of a character. -/
def octetsAfter (octet : Nat) : Option Nat :=
  if octet < 0x80 then some 0
  else if 0xC0 ≤ octet && octet < 0xE0 then some 1
  else if 0xE0 ≤ octet && octet < 0xF0 then some 2
  else if 0xF0 ≤ octet && octet < 0xF8 then some 3
  else none

/-- Takes octets that continue a character. -/
def takeOctets : (count : Nat) → List Char → Option (List Char × List Char)
  | 0, cs => some ([], cs)
  | count + 1, cs => do
    let (octet, cs) ← takeOctet cs
    if 0x80 ≤ octet && octet < 0xC0 then
      let (octets, cs) ← takeOctets count cs
      some (Char.ofNat octet :: octets, cs)
    else none

/-- The characters of a tag, where a verbatim one admits marks of flow collections. -/
def isTagChar (verbatim : Bool) (c : Char) : Bool :=
  isNameChar c || ";/?:@&=+$.%!~*'()".toList.contains c || (verbatim && (c == ',' || c == '[' || c == ']'))

/-- Takes the characters of a tag. An octet in hexadecimal counts as the character of its number. -/
def takeTagChars (verbatim : Bool) : (fuel : Nat) → List Char → Option (List Char × List Char)
  | 0, _ => none
  | _ + 1, [] => some ([], [])
  | fuel + 1, c :: cs =>
    if !isTagChar verbatim c then some ([], c :: cs)
    else do
      let (taken, rest) ←
        if c == '%' then do
          let (octet, rest) ← takeOctet (c :: cs)
          let (more, rest) ← takeOctets (← octetsAfter octet) rest
          some (Char.ofNat octet :: more, rest)
        else some ([c], cs)
      let (tail, rest) ← takeTagChars verbatim fuel rest
      some (taken ++ tail, rest)

/-- Takes the characters of a tag, at least one. -/
def takeTagText (verbatim : Bool) (cs : List Char) : Option (List Char × List Char) := do
  let (text, rest) ← takeTagChars verbatim (cs.length + 1) cs
  if text.isEmpty then none else some (text, rest)

/-- What the characters of a tag say, which ends before a character of number zero. -/
def tagText (cs : List Char) : String := String.ofList (cs.takeWhile (· != '\x00'))

/-- Takes what may be a handle: an exclamation mark, a name, and an exclamation mark if it follows. -/
def takeHandle : List Char → Option (List Char × List Char)
  | '!' :: cs =>
    let name := cs.takeWhile isNameChar
    match cs.dropWhile isNameChar with
    | '!' :: rest => some ('!' :: name ++ ['!'], rest)
    | rest => some ('!' :: name, rest)
  | _ => none

/-- Takes a tag: between angle brackets, after a handle between two exclamation marks, or after a single exclamation
mark, which may also stand alone. -/
def takeTag (cs : List Char) : Option (Tag × List Char) :=
  match cs with
  | '!' :: '<' :: cs => do
    let (text, rest) ← takeTagText true cs
    match rest with
    | '>' :: rest => some (⟨"", tagText text⟩, rest)
    | _ => none
  | _ => do
    let (handle, rest) ← takeHandle cs
    if 1 < handle.length && handle.getLast? == some '!' then
      let (text, rest) ← takeTagText false rest
      some (⟨String.ofList handle, tagText text⟩, rest)
    else
      let (text, rest) ← takeTagChars false (rest.length + 1) rest
      match tagText (handle.drop 1 ++ text) with
      | "" => some (⟨"", "!"⟩, rest)
      | suffix => some (⟨"!", suffix⟩, rest)

/-- A tag, which ends its word or stands before a comma in a flow collection, and the place after it. -/
def readTag (flow : Bool) (p : Place) : Option (Tag × Place) := do
  let (tag, rest) ← takeTag p.rest
  if endsWord rest || (flow && rest.head? == some ',') then some (tag, p.before rest) else none

/-! ## Directives -/

/-- What stands before a document. -/
inductive Directive where
  /-- The version of the format. -/
  | version (major minor : Nat)
  /-- What a handle stands for. -/
  | handle (name lead : String)

/-- Takes a number of at most nine digits. -/
def takeVersion (cs : List Char) : Option (Nat × List Char) :=
  let digits := cs.takeWhile isDigit
  if digits.isEmpty || 9 < digits.length then none else some (digitsValue digits 0, cs.dropWhile isDigit)

/-- Takes the values of a directive. -/
def takeDirective (name : List Char) (cs : List Char) : Option (Directive × List Char) :=
  let cs := cs.dropWhile isGap
  if name = "YAML".toList then do
    let (major, rest) ← takeVersion cs
    match rest with
    | '.' :: rest =>
      let (minor, rest) ← takeVersion rest
      some (.version major minor, rest)
    | _ => none
  else if name = "TAG".toList then do
    let (handle, rest) ← takeHandle cs
    if handle ≠ ['!'] ∧ handle.getLast? ≠ some '!' ∨ !rest.head?.any isGap then none
    else
      let (lead, rest) ← takeTagText true (rest.dropWhile isGap)
      if endsWord rest then some (.handle (String.ofList handle) (tagText lead), rest) else none
  else none

/-- A directive, which fills its line, and the place after it. -/
def readDirective (p : Place) : Option (Directive × Place) := do
  let cs := p.rest.drop 1
  let name := cs.takeWhile isNameChar
  let rest := cs.dropWhile isNameChar
  if !endsWord rest then none
  else
    let (directive, rest) ← takeDirective name rest
    some (directive, ← (p.before rest).finishLine)

end SolverClient.Yaml
