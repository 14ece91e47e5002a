import SolverClient.Yaml.Property
import SolverClient.Yaml.Scalar

/-!
# Tokens of a YAML text

The marks and scalars of a text in order, where the starts and ends of blocks, which indentation alone shows, are
tokens too (`Token.ofText?`). A key is known as one only by the colon after it: the reader remembers where a key may
have started (`KeyStart`) and puts its token there when the colon comes.
-/

namespace SolverClient.Yaml

/-- The tokens of a text. -/
inductive Token where
  | directive (d : Directive)
  | documentStart
  | documentEnd
  | blockList
  | blockTable
  | blockEnd
  | flowList
  | flowListEnd
  | flowTable
  | flowTableEnd
  | comma
  /-- The dash of a block list. -/
  | item
  | key
  | value
  | anchor (name : String)
  | alias (name : String)
  | tag (t : Tag)
  | scalar (style : Style) (text : String)

/-- A place where a key may have started. -/
structure KeyStart where
  /-- The number of tokens before it. -/
  number : Nat
  line : Nat
  column : Nat
  /-- The line is an entry of a block table, so that a key has to be there. -/
  required : Bool

/-- A key is shorter than a line and a limit. -/
def KeyStart.isPast (k : KeyStart) (p : Place) : Bool := k.line < p.line || k.column + 1024 < p.column

/-- What is read of a text up to a place. -/
structure Scan where
  place : Place
  tokens : Array Token := #[]
  /-- The columns of the open blocks, the innermost first; the last one is that of the document. -/
  columns : List Int := [-1]
  /-- Where a key may have started in each open flow collection, the innermost first, and in the block around them. -/
  keys : List (Option KeyStart) := [none]
  /-- A key may start here. -/
  keyAllowed : Bool := true

namespace Scan

/-- The place is inside a flow collection. -/
def inFlow (s : Scan) : Bool := 1 < s.keys.length

/-- The column of the innermost block. -/
def column (s : Scan) : Int := s.columns.headD (-1)

/-- The scan with another token, and at another place. -/
def push (s : Scan) (t : Token) (place : Place) : Scan := { s with tokens := s.tokens.push t, place }

/-- The scan with another token, which is a mark of some characters. -/
def mark (s : Scan) (t : Token) (length : Nat) : Scan := s.push t (s.place.skip length)

/-- The scan with another token after the first `number` ones. -/
def insertAt (s : Scan) (number : Nat) (t : Token) : Scan :=
  { s with tokens := (s.tokens.extract 0 number).push t ++ s.tokens.extract number s.tokens.size }

/-- The scan with or without leave for a key to start. -/
def allowKey (s : Scan) (keyAllowed : Bool) : Scan := { s with keyAllowed }

/-- Leaves the blocks that start right of a column. -/
def leaveBlocks (s : Scan) (column : Int) : Scan :=
  if s.inFlow then s
  else
    let left := s.columns.takeWhile (column < ·)
    { s with
      columns := s.columns.dropWhile (column < ·)
      tokens := s.tokens ++ Array.replicate left.length .blockEnd }

/-- Enters a block at a column right of the innermost one, its start standing after the first `number` tokens. -/
def enterBlock (s : Scan) (column : Nat) (number : Nat) (start : Token) : Scan :=
  if s.inFlow || (column : Int) ≤ s.column then s
  else { s.insertAt number start with columns := column :: s.columns }

/-- Enters a block at this place. -/
def enterHere (s : Scan) (start : Token) : Scan := s.enterBlock s.place.column s.tokens.size start

/-- Gives up keys that cannot have started where they may have. -/
def dropPast (s : Scan) : Option Scan :=
  if s.keys.any (·.any fun k => k.required && k.isPast s.place) then none
  else some { s with keys := s.keys.map (·.filter fun k => !k.isPast s.place) }

/-- Gives up the innermost key. -/
def dropKey (s : Scan) : Option Scan :=
  match s.keys with
  | some k :: keys => if k.required then none else some { s with keys := none :: keys }
  | _ => some s

/-- Remembers that a key may start at this place, if it may. -/
def markKey (s : Scan) : Option Scan :=
  if !s.keyAllowed then some s
  else do
    let p := s.place
    let s ← s.dropKey
    let start : KeyStart := ⟨s.tokens.size, p.line, p.column, !s.inFlow && s.column == p.column⟩
    some { s with keys := some start :: s.keys.drop 1 }

/-! ## Blanks and comments -/

/-- The next place with anything but blanks and comments, and whether a key may start there. A tab is no blank where a
key may start in a block; there every line may start one. A byte order mark is a blank at the start of a line. -/
def seekFrom (flow keyAllowed comment : Bool) (line column : Nat) : List Char → Bool × Place
  | [] => (keyAllowed, ⟨line, column, []⟩)
  | c :: cs =>
    if isBreak c then seekFrom flow (keyAllowed || !flow) false (line + 1) 0 cs
    else if comment || c == ' ' || (c == '\t' && (flow || !keyAllowed)) || (c == '\ufeff' && column == 0) then
      seekFrom flow keyAllowed comment line (column + 1) cs
    else if c == '#' then seekFrom flow keyAllowed true line (column + 1) cs
    else (keyAllowed, ⟨line, column, c :: cs⟩)

/-- Goes to the start of the next token. -/
def seek (s : Scan) : Option Scan := do
  let (keyAllowed, place) := seekFrom s.inFlow s.keyAllowed false s.place.line s.place.column s.place.rest
  let s ← { s with keyAllowed, place }.dropPast
  some (s.leaveBlocks place.column)

/-! ## The kinds of tokens -/

/-- A line of its own between documents. -/
def outside (s : Scan) : Option Scan := do some ((← (s.leaveBlocks (-1)).dropKey).allowKey false)

/-- The mark of a document's start or end. -/
def documentMark (s : Scan) (t : Token) : Option Scan := do some ((← s.outside).mark t 3)

/-- A directive. -/
def directive (s : Scan) : Option Scan := do
  let (d, place) ← readDirective s.place
  some ((← s.outside).push (.directive d) place)

/-- The opening bracket of a flow collection. -/
def openFlow (s : Scan) (t : Token) : Option Scan := do
  let s ← s.markKey
  some ({ s with keys := none :: s.keys, keyAllowed := true }.mark t 1)

/-- The closing bracket of a flow collection. -/
def closeFlow (s : Scan) (t : Token) : Option Scan := do
  let s ← s.dropKey
  let keys := if s.inFlow then s.keys.drop 1 else s.keys
  some ({ s with keys, keyAllowed := false }.mark t 1)

/-- The comma between items or entries. -/
def comma (s : Scan) : Option Scan := do some (((← s.dropKey).allowKey true).mark .comma 1)

/-- The dash of an item, which may start a block list. -/
def item (s : Scan) : Option Scan := do
  if !s.inFlow && !s.keyAllowed then none
  else some (((← (s.enterHere .blockList).dropKey).allowKey true).mark .item 1)

/-- The question mark of a key. -/
def explicitKey (s : Scan) : Option Scan := do
  if !s.inFlow && !s.keyAllowed then none
  else some (((← (s.enterHere .blockTable).dropKey).allowKey !s.inFlow).mark .key 1)

/-- The colon of a value. The key before it, if one may have started, gets its token and may start a block table. -/
def value (s : Scan) : Option Scan :=
  match s.keys with
  | some k :: keys =>
    let s := ({ s with keys := none :: keys }.insertAt k.number .key).enterBlock k.column k.number .blockTable
    some ((s.allowKey false).mark .value 1)
  | _ =>
    if !s.inFlow && !s.keyAllowed then none
    else some (((s.enterHere .blockTable).allowKey !s.inFlow).mark .value 1)

/-- An anchor or an alias. -/
def named (s : Scan) (t : String → Token) : Option Scan := do
  let (name, place) ← readName s.place
  some (((← s.markKey).allowKey false).push (t name) place)

/-- A tag. -/
def tag (s : Scan) : Option Scan := do
  let (t, place) ← readTag s.inFlow s.place
  some (((← s.markKey).allowKey false).push (.tag t) place)

/-- A quoted scalar. -/
def quoted (s : Scan) (quote : Char) : Option Scan := do
  let (cs, place) ← readQuoted quote s.place
  some (((← s.markKey).allowKey false).push (.scalar .quoted (String.ofList cs)) place)

/-- A plain scalar. If it is the last one of its line, a key may start on the next. -/
def plain (s : Scan) : Option Scan := do
  let (cs, gap, place) ← readPlain s.inFlow (s.column + 1) s.place
  some (((← s.markKey).allowKey !gap.breaks.isEmpty).push (.scalar .plain (String.ofList cs)) place)

/-- A block of lines. -/
def block (s : Scan) (style : Style) : Option Scan := do
  let (cs, place) ← readBlock (style == .folded) s.column s.place
  some (((← s.dropKey).allowKey true).push (.scalar style (String.ofList cs)) place)

/-- The token that starts at this place. -/
def next (s : Scan) : Option Scan :=
  let word := endsWord (s.place.rest.drop 1)
  if s.place.isMark '-' then s.documentMark .documentStart
  else if s.place.isMark '.' then s.documentMark .documentEnd
  else
    match s.place.rest with
    | [] => none
    | '%' :: _ => if s.place.column = 0 then s.directive else none
    | '[' :: _ => s.openFlow .flowList
    | '\x7b' :: _ => s.openFlow .flowTable
    | ']' :: _ => s.closeFlow .flowListEnd
    | '\x7d' :: _ => s.closeFlow .flowTableEnd
    | ',' :: _ => s.comma
    | '*' :: _ => s.named .alias
    | '&' :: _ => s.named .anchor
    | '!' :: _ => s.tag
    | '\'' :: _ => s.quoted '\''
    | '"' :: _ => s.quoted '"'
    | c :: cs =>
      if c == '-' && word then s.item
      else if c == '?' && (s.inFlow || word) then s.explicitKey
      else if c == ':' && (s.inFlow || word) then s.value
      else if c == '|' && !s.inFlow then s.block .literal
      else if c == '>' && !s.inFlow then s.block .folded
      else if startsPlain s.inFlow (c :: cs) then s.plain
      else none

/-- The tokens up to the end of the text. Every token takes a character. -/
def finish : (fuel : Nat) → Scan → Option (List Token)
  | 0, _ => none
  | fuel + 1, s => do
    let s ← s.seek
    if s.place.rest.isEmpty then some (← s.outside).tokens.toList
    else finish fuel (← s.next)

end Scan

/-- A character that a text may hold: no control character but tab, ends of lines and the next-line control. -/
def isAllowed (c : Char) : Bool :=
  c == '\t' || c == '\n' || c == '\r' || (0x20 ≤ c.toNat && c.toNat ≤ 0x7E) || c.toNat == 0x85 ||
    (0xA0 ≤ c.toNat && c.toNat != 0xFFFE && c.toNat != 0xFFFF)

/-- The tokens of a text. -/
def Token.ofText? (text : String) : Option (List Token) :=
  if !text.toList.all isAllowed then none
  else
    let cs := unifyBreaks text.toList
    Scan.finish (cs.length + 1) { place := ⟨0, 0, cs⟩ }

end SolverClient.Yaml
