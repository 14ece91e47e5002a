import SolverClient.Text.Numeral
import SolverClient.Yaml.Place

/-!
# Scalars of a YAML text

The texts of scalars: plain ones, quoted ones, and blocks of lines. Inside a plain or quoted scalar words are kept
apart by gaps, which may reach over lines; a block ends where a line is indented less than its first one.
-/

namespace SolverClient.Yaml

open SolverClient.Text

/-- How a scalar is written. -/
inductive Style where
  | plain
  | quoted
  /-- A block that keeps its ends of lines. -/
  | literal
  /-- A block whose lines are joined. -/
  | folded
  deriving DecidableEq

/-! ## Plain scalars -/

/-- The marks that structure flow collections. -/
def isFlowMark (c : Char) : Bool := c == ',' || c == '[' || c == ']' || c == '\x7b' || c == '\x7d'

/-- The characters that mark something other than a plain scalar. -/
def isIndicator (c : Char) : Bool := "-?:,[]\x7b\x7d#&*!|>'\"%@\x60".toList.contains c

/-- A plain scalar can start here: with a character that is no indicator, or with a dash, a question mark or a colon
before a word, of which a flow collection admits the dash only. -/
def startsPlain (flow : Bool) : List Char → Bool
  | [] => false
  | c :: cs =>
    !(isIndicator c || isGap c || isBreak c) ||
      ((c == '-' || (!flow && (c == '?' || c == ':'))) && !endsWord cs)

/-- The characters of a plain scalar up to the next blank or the next mark that ends it. Inside a flow collection a
colon may not stand before one of its marks or a question mark. -/
def plainWord (flow : Bool) : List Char → Option (List Char)
  | [] => some []
  | c :: cs =>
    if flow && c == ':' && cs.head?.any (fun d => isFlowMark d || d == '?') then none
    else if isGap c || isBreak c || (c == ':' && endsWord cs) || (flow && isFlowMark c) then some []
    else (plainWord flow cs).map (c :: ·)

/-- Goes on with a plain scalar of which `done` is read, in reverse, after a gap. In a block the next line has to
reach the column `least`. Gives the text, the gap after it, and the place after that. -/
def plainTail (flow : Bool) (least : Int) :
    (fuel : Nat) → (done : List Char) → Gap → Place → Option (List Char × Gap × Place)
  | 0, _, _, _ => none
  | fuel + 1, done, gap, p =>
    if p.isDocumentMark || p.rest.head? == some '#' then some (done.reverse, gap, p)
    else
      match plainWord flow p.rest with
      | none => none
      | some [] => some (done.reverse, gap, p)
      | some word => do
        let done := word.reverse ++ gap.text.reverse ++ done
        let q := p.skip word.length
        let (next, r) ← q.gap least
        if next.blanks.isEmpty && next.breaks.isEmpty then some (done.reverse, next, q)
        else if !flow && (r.column : Int) < least then some (done.reverse, next, r)
        else plainTail flow least fuel done next r

/-- The text of a plain scalar, the gap after it, and the place after that. -/
def readPlain (flow : Bool) (least : Int) (p : Place) : Option (List Char × Gap × Place) :=
  plainTail flow least (p.rest.length + 1) [] {} p

/-! ## Quoted scalars -/

/-- The character of a number of digits in hexadecimal. -/
def codePoint (digits : List Char) : Option Char := do
  let n := (← digits.mapM hexValue).foldl (fun n v => 16 * n + v) 0
  if n < 0xD800 || (0xE000 ≤ n && n < 0x110000) then some (Char.ofNat n) else none

/-- The escapes of one letter. -/
def escapes : List (Char × Char) :=
  [('0', '\x00'), ('a', '\x07'), ('b', '\x08'), ('t', '\t'), ('\t', '\t'), ('n', '\n'), ('v', '\x0b'), ('f', '\x0c'),
    ('r', '\r'), ('e', '\x1b'), (' ', ' '), ('"', '"'), ('/', '/'), ('\\', '\\'), ('N', '\u0085'), ('_', '\u00a0'),
    ('L', '\u2028'), ('P', '\u2029')]

/-- The character of an escape, after its backslash, and the number of characters taken. -/
def readEscape : List Char → Option (Char × Nat)
  | [] => none
  | c :: cs =>
    let coded (n : Nat) : Option (Char × Nat) :=
      if cs.length < n then none else (codePoint (cs.take n)).map fun d => (d, n + 1)
    match c with
    | 'x' => coded 2
    | 'u' => coded 4
    | 'U' => coded 8
    | c => (escapes.lookup c).map fun d => (d, 1)

/-- The characters of a quoted scalar up to its quote, in reverse onto `done`. In single quotes a quote is written
twice; in double quotes there are escapes, and an escaped end of line joins the lines without a blank. -/
def quotedTail (quote : Char) : (fuel : Nat) → (done : List Char) → Place → Option (List Char × Place)
  | 0, _, _ => none
  | fuel + 1, done, p =>
    match p.rest with
    | [] => none
    | c :: cs =>
      if p.isDocumentMark then none
      else if isGap c || isBreak c then do
        let (gap, q) ← p.gap 0
        quotedTail quote fuel (gap.text.reverse ++ done) q
      else if c == quote then
        if quote == '\'' && cs.head? == some '\'' then quotedTail quote fuel ('\'' :: done) (p.skip 2)
        else some (done.reverse, p.skip 1)
      else if c == '\\' && quote == '"' then do
        if cs.head?.any isBreak then
          let (gap, q) ← (p.skip 1).newLine.gap 0
          quotedTail quote fuel (gap.breaks.reverse ++ done) q
        else
          let (e, n) ← readEscape cs
          quotedTail quote fuel (e :: done) (p.skip (n + 1))
      else quotedTail quote fuel (c :: done) (p.skip 1)

/-- The text of a quoted scalar, and the place after it. -/
def readQuoted (quote : Char) (p : Place) : Option (List Char × Place) :=
  quotedTail quote (p.rest.length + 1) [] (p.skip 1)

/-! ## Blocks of lines -/

/-- How a block treats the ends of lines after its last line. -/
inductive Chomping where
  | clip
  | strip
  | keep
  deriving DecidableEq

/-- Takes the mark of a chomping, if it is there. -/
def takeChomping : List Char → Option Chomping × List Char
  | '-' :: cs => (some .strip, cs)
  | '+' :: cs => (some .keep, cs)
  | cs => (none, cs)

/-- Takes the digit of an indentation, which is not zero; without a digit the indentation is not given. -/
def takeIndent : List Char → Option (Option Nat × List Char)
  | [] => some (none, [])
  | c :: cs =>
    if !isDigit c then some (none, c :: cs)
    else if c == '0' then none
    else some (some (digitValue c), cs)

/-- Takes the header of a block, after its mark: chomping and indentation in either order. -/
def takeHeader (cs : List Char) : Option (Chomping × Option Nat × List Char) := do
  let (first, cs) := takeChomping cs
  let (indent, cs) ← takeIndent cs
  match first with
  | some chomping => some (chomping, indent, cs)
  | none =>
    let (second, cs) := takeChomping cs
    some (second.getD .clip, indent, cs)

/-- The empty lines and the indentation at a place: the ends of lines after `breaks`, the greatest column reached, and
the place. Where the indentation is given no more than that is taken. A tab inside the indentation is refused. -/
def blockGap (indent : Option Nat) :
    (fuel : Nat) → (breaks : List Char) → (widest : Nat) → Place → Option (List Char × Nat × Place)
  | 0, _, _, _ => none
  | fuel + 1, breaks, widest, p =>
    let blanks := (p.rest.takeWhile (· == ' ')).length
    let q := p.skip ((indent.map fun n => min blanks (n - p.column)).getD blanks)
    let widest := max widest q.column
    match q.rest with
    | [] => some (breaks, widest, q)
    | c :: _ =>
      if c == '\t' && indent.all (q.column < ·) then none
      else if isBreak c then blockGap indent fuel (breaks ++ [c]) widest q.newLine
      else some (breaks, widest, q)

/-- The text of a block as far as it is read: the characters in reverse, the end of the last line, the ends of the
empty lines after it, and whether the last line started with a blank. -/
structure BlockText where
  done : List Char := []
  lineEnd : List Char := []
  breaks : List Char
  spaced : Bool := false

/-- The text with another line. In a folded block a line feed between two lines of words is dropped, or becomes a
blank if no empty line follows it. -/
def BlockText.push (folded : Bool) (b : BlockText) (line lineEnd breaks : List Char) : BlockText :=
  let spaced := line.head?.any isGap
  let glue :=
    if folded && b.lineEnd == ['\n'] && !b.spaced && !spaced then (if b.breaks.isEmpty then [' '] else [])
    else b.lineEnd
  ⟨line.reverse ++ b.breaks.reverse ++ glue.reverse ++ b.done, lineEnd, breaks, spaced⟩

/-- Goes on with a block at a line, which belongs to it if it starts in the column of the indentation. -/
def blockLines (folded : Bool) (indent : Nat) : (fuel : Nat) → BlockText → Place → Option (BlockText × Place)
  | 0, _, _ => none
  | fuel + 1, b, p =>
    if p.column ≠ indent ∨ p.rest.isEmpty then some (b, p)
    else do
      let line := p.rest.takeWhile (!isBreak ·)
      let q := p.skip line.length
      let lineEnd := q.rest.take 1
      let q := if lineEnd.isEmpty then q else q.newLine
      let (breaks, _, next) ← blockGap (some indent) (q.rest.length + 1) [] 0 q
      blockLines folded indent fuel (b.push folded line lineEnd breaks) next

/-- The text of a block with its end. -/
def BlockText.text (b : BlockText) : Chomping → List Char
  | .strip => b.done.reverse
  | .clip => b.done.reverse ++ b.lineEnd
  | .keep => b.done.reverse ++ b.lineEnd ++ b.breaks

/-- The text of a block, from its mark on, and the place after it. An indentation that is given counts from the
column of the enclosing block; one that is not is the widest up to the first line of words, and more than that
column. -/
def readBlock (folded : Bool) (outer : Int) (p : Place) : Option (List Char × Place) := do
  let (chomping, given, rest) ← takeHeader (p.rest.drop 1)
  let body ← (p.before rest).finishLine
  let given := given.map fun n => outer.toNat + n
  let (breaks, widest, first) ← blockGap given (body.rest.length + 1) [] 0 body
  let indent := given.getD (max widest (max (outer + 1).toNat 1))
  let (b, next) ← blockLines folded indent (first.rest.length + 1) { breaks } first
  some (b.text chomping, next)

end SolverClient.Yaml
