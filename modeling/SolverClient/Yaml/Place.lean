/-!
# Places in a YAML text

A text is read as a list of characters, with the line and the column that the reader has reached (`Place`). Ends of
lines of most kinds are written in one way beforehand (`unifyBreaks`); the line separator and the paragraph separator
end a line as well and stay what they are.
-/

namespace SolverClient.Yaml

/-- The characters with carriage returns and next-line controls written as line feeds. -/
def unifyBreaks : List Char → List Char
  | '\r' :: '\n' :: cs => '\n' :: unifyBreaks cs
  | '\r' :: cs => '\n' :: unifyBreaks cs
  | '\u0085' :: cs => '\n' :: unifyBreaks cs
  | c :: cs => c :: unifyBreaks cs
  | [] => []

/-- The ends of lines. -/
def isBreak (c : Char) : Bool := c == '\n' || c == '\u2028' || c == '\u2029'

/-- The blanks inside a line. -/
def isGap (c : Char) : Bool := c == ' ' || c == '\t'

/-- A blank, an end of line, or the end of the text. -/
def endsWord : List Char → Bool
  | [] => true
  | c :: _ => isGap c || isBreak c

/-- A place in a text: its line, its column, and what follows. -/
structure Place where
  line : Nat
  column : Nat
  rest : List Char

namespace Place

/-- The place after a number of characters of the same line. -/
def skip (n : Nat) (p : Place) : Place := ⟨p.line, p.column + n, p.rest.drop n⟩

/-- The place after the characters of the line that satisfy `f`. -/
def skipWhile (f : Char → Bool) (p : Place) : Place := p.skip (p.rest.takeWhile f).length

/-- The place further on in the line from which on `rest` follows. -/
def before (p : Place) (rest : List Char) : Place := ⟨p.line, p.column + (p.rest.length - rest.length), rest⟩

/-- The start of the next line, at the end of one. -/
def newLine (p : Place) : Place := ⟨p.line + 1, 0, p.rest.drop 1⟩

/-- The start of the next line, or the end of the text, if nothing but blanks and a comment is left of the line. -/
def finishLine (p : Place) : Option Place :=
  let q := p.skipWhile isGap
  let q := if q.rest.head? == some '#' then q.skipWhile (!isBreak ·) else q
  match q.rest with
  | [] => some q
  | c :: _ => if isBreak c then some q.newLine else none

/-- The line starts with three times the character. -/
def isMark (c : Char) (p : Place) : Bool :=
  p.column == 0 && p.rest.take 3 == [c, c, c] && endsWord (p.rest.drop 3)

/-- The line starts with the mark of a document's start or end. -/
def isDocumentMark (p : Place) : Bool := p.isMark '-' || p.isMark '.'

end Place

/-! ## Gaps between words -/

/-- What lies between two words of a scalar: the blanks before the first end of line, and the ends of lines. -/
structure Gap where
  blanks : List Char := []
  breaks : List Char := []

/-- What a gap stands for. A single line feed is a blank, and of more ends of lines a line feed that comes first is
dropped; a separator stays. -/
def Gap.text (g : Gap) : List Char :=
  match g.breaks with
  | [] => g.blanks
  | ['\n'] => [' ']
  | '\n' :: more => more
  | breaks => breaks

/-- Goes on with a gap. Blanks after an end of line are dropped, and a tab among them has to stand in the column
`least` or further right. -/
def gapFrom (least : Int) (g : Gap) (line column : Nat) : List Char → Option (Gap × Place)
  | [] => some (g, ⟨line, column, []⟩)
  | c :: cs =>
    if isBreak c then gapFrom least { g with breaks := g.breaks ++ [c] } (line + 1) 0 cs
    else if !isGap c then some (g, ⟨line, column, c :: cs⟩)
    else if g.breaks.isEmpty then gapFrom least { g with blanks := g.blanks ++ [c] } line (column + 1) cs
    else if c == '\t' && (column : Int) < least then none
    else gapFrom least g line (column + 1) cs

/-- The gap at a place, and the place after it. -/
def Place.gap (p : Place) (least : Int) : Option (Gap × Place) := gapFrom least {} p.line p.column p.rest

end SolverClient.Yaml
