import SolverClient.Decimal.Format
import SolverClient.Decimal.Reading
import SolverClient.Toml.Table
import SolverClient.Word

/-!
# Reading TOML

The text of a document as a table. Every reader takes what it reads off the front of the text and gives the
rest. A key has less than `maxDepth` parts, and less than that many brackets and braces stand inside each other. The
readers that recur are total by a fuel that the length of the text bounds; `Toml.parse?` hides it.
-/

namespace SolverClient.Toml

open SolverClient.Text

/-- The limit to the parts of a key and to the depth of a value. -/
def maxDepth : Nat := 80

/-- The blanks inside a line. -/
def isGap (c : Char) : Bool := c == ' ' || c == '\t'

/-- The text after blanks of the line. -/
def skipGap (cs : List Char) : List Char := cs.dropWhile isGap

/-- A character that may stand in comments and strings: the tab and all but the control characters. -/
def isVisible (c : Char) : Bool := c == '\t' || (0x20 ≤ c.toNat && c.toNat != 0x7F)

/-- The text after the end of a line, if one is there. -/
def takeLineEnd : List Char → Option (List Char)
  | '\n' :: cs => some cs
  | '\r' :: '\n' :: cs => some cs
  | _ => none

/-- The text after a comment, if one is there. -/
def skipComment : List Char → List Char
  | '#' :: cs => cs.dropWhile isVisible
  | cs => cs

/-- The text after the rest of a line on which nothing but a comment may follow. -/
def finishLine (cs : List Char) : Option (List Char) :=
  match skipComment (skipGap cs) with
  | [] => some []
  | cs => takeLineEnd cs

/-- The text after blanks, comments and ends of lines. -/
def skipLines : (fuel : Nat) → List Char → List Char
  | 0, cs => cs
  | fuel + 1, cs =>
    let rest := skipComment (skipGap cs)
    match takeLineEnd rest with
    | some rest => skipLines fuel rest
    | none => rest

/-- The text after all empty lines. -/
def skipEmpty (cs : List Char) : List Char := skipLines (cs.length + 1) cs

/-- The character of a code point in hexadecimal digits. -/
def codePoint (digits : List Char) : Option Char := do
  let n := (← digits.mapM hexValue).foldl (fun n v => 16 * n + v) 0
  if n < 0xD800 || (0xE000 ≤ n && n < 0x110000) then some (Char.ofNat n) else none

/-- The character of an escape, after its backslash. -/
def readEscape : List Char → Option (Char × List Char)
  | 'b' :: cs => some ('\x08', cs)
  | 't' :: cs => some ('\t', cs)
  | 'n' :: cs => some ('\n', cs)
  | 'f' :: cs => some ('\x0c', cs)
  | 'r' :: cs => some ('\r', cs)
  | '"' :: cs => some ('"', cs)
  | '\\' :: cs => some ('\\', cs)
  | 'u' :: cs => if cs.length < 4 then none else (codePoint (cs.take 4)).map fun c => (c, cs.drop 4)
  | 'U' :: cs => if cs.length < 8 then none else (codePoint (cs.take 8)).map fun c => (c, cs.drop 8)
  | _ => none

/-- The characters of a string with escapes up to its quote, in reverse onto `done`. -/
def readBasic : (fuel : Nat) → List Char → List Char → Option (List Char × List Char)
  | 0, _, _ => none
  | _ + 1, _, [] => none
  | fuel + 1, done, c :: cs =>
    if c = '"' then some (done, cs)
    else if c = '\\' then do
      let (e, rest) ← readEscape cs
      readBasic fuel (e :: done) rest
    else if isVisible c then readBasic fuel (c :: done) cs
    else none

/-- The text after blanks and ends of lines. -/
def skipBlankLines : List Char → List Char
  | '\n' :: cs => skipBlankLines cs
  | '\r' :: '\n' :: cs => skipBlankLines cs
  | c :: cs => if isGap c then skipBlankLines cs else c :: cs
  | [] => []

/-- The text after the blanks and ends of lines that a backslash at the end of a line takes away, if it is one. -/
def skipJoint (cs : List Char) : Option (List Char) := (takeLineEnd (skipGap cs)).map skipBlankLines

/-- The characters of a string of several lines up to its three quotes, in reverse onto `done`. Up to two quotes
before those three belong to the string. -/
def readLong (quote : Char) : (fuel : Nat) → List Char → List Char → Option (List Char × List Char)
  | 0, _, _ => none
  | _ + 1, _, [] => none
  | fuel + 1, done, c :: cs =>
    if c = quote then
      let run := 1 + (cs.takeWhile (· == quote)).length
      let rest := cs.dropWhile (· == quote)
      if 5 < run then none
      else if 3 ≤ run then some (List.replicate (run - 3) quote ++ done, rest)
      else readLong quote fuel (List.replicate run quote ++ done) rest
    else if c = '\\' && quote == '"' then
      match skipJoint cs with
      | some rest => readLong quote fuel done rest
      | none => do
        let (e, rest) ← readEscape cs
        readLong quote fuel (e :: done) rest
    else if isVisible c then readLong quote fuel (c :: done) cs
    else do
      let rest ← takeLineEnd (c :: cs)
      readLong quote fuel ('\n' :: done) rest

/-- A string from its characters in reverse. -/
def asText (r : List Char × List Char) : String × List Char := (String.ofList r.1.reverse, r.2)

/-- A string of one line, after its opening quote. -/
def readShort (quote : Char) (cs : List Char) : Option (String × List Char) :=
  if quote = '"' then (readBasic (cs.length + 1) [] cs).map asText
  else
    match cs.dropWhile fun c => isVisible c && c != quote with
    | c :: rest =>
      if c = quote then some (String.ofList (cs.takeWhile fun c => isVisible c && c != quote), rest) else none
    | [] => none

/-- A string of several lines, after its opening quotes; an end of line that follows them at once does not count. -/
def readLongText (quote : Char) (cs : List Char) : Option (String × List Char) :=
  let body := (takeLineEnd cs).getD cs
  (readLong quote (body.length + 1) [] body).map asText

/-- The characters of a key without quotes. -/
def isKeyChar (c : Char) : Bool := c.isAlphanum || c == '_' || c == '-'

/-- One part of a key. -/
def readKeyPart : List Char → Option (String × List Char)
  | '"' :: cs => readShort '"' cs
  | '\'' :: cs => readShort '\'' cs
  | cs =>
    let name := cs.takeWhile isKeyChar
    if name.isEmpty then none else some (String.ofList name, cs.dropWhile isKeyChar)

/-- A dotted key: the parts before the last one, and the last one. -/
def readKey : (fuel : Nat) → List String → List Char → Option ((List String × String) × List Char)
  | 0, _, _ => none
  | fuel + 1, path, cs => do
    let (name, rest) ← readKeyPart (skipGap cs)
    match skipGap rest with
    | '.' :: rest => readKey fuel (path ++ [name]) rest
    | rest => if path.length + 1 < maxDepth then some ((path, name), rest) else none

/-- A dotted key. -/
def takeKey (cs : List Char) : Option ((List String × String) × List Char) := readKey (cs.length + 1) [] cs

/-! ## Numbers and moments -/

/-- Digits with single underscores between them. -/
def ungroup (digit : Char → Bool) : List Char → Option (List Char)
  | [] => none
  | [c] => if digit c then some [c] else none
  | c :: '_' :: rest => if digit c then (ungroup digit rest).map (c :: ·) else none
  | c :: rest => if digit c then (ungroup digit rest).map (c :: ·) else none

/-- The text after its sign, and whether the sign is a minus. -/
def takeSign : List Char → Bool × List Char
  | '-' :: cs => (true, cs)
  | '+' :: cs => (false, cs)
  | cs => (false, cs)

/-- The decimal digits of a number, which has no leading zero. -/
def decimalDigits (cs : List Char) : Option (List Char) :=
  match ungroup isDigit cs with
  | some ('0' :: _ :: _) => none
  | digits => digits

/-- The value of digits in a base. -/
def baseValue (base : Nat) (cs : List Char) : Option Nat := do
  let inBase (c : Char) : Bool := (hexValue c).any (· < base)
  let values ← (← ungroup inBase cs).mapM hexValue
  some (values.foldl (fun n v => base * n + v) 0)

/-- The absolute value of an integer without sign. -/
def naturalOf : List Char → Option Nat
  | '0' :: 'x' :: cs => baseValue 16 cs
  | '0' :: 'o' :: cs => baseValue 8 cs
  | '0' :: 'b' :: cs => baseValue 2 cs
  | cs => (decimalDigits cs).map fun ds => digitsValue ds 0

/-- An integer of 64 bits; only a decimal one has a sign. -/
def integerOf (cs : List Char) : Option Int := do
  let (negative, digits) := takeSign cs
  let n ←
    if digits.length = cs.length then naturalOf cs else (decimalDigits digits).map fun ds => digitsValue ds 0
  let value : Int := if negative then -n else n
  if Word.isSigned value then some value else none

/-- A decimal is not beyond the greatest double. -/
def isInRange (cs : List Char) : Bool :=
  (Decimal.readFloat (String.ofList (cs.filter (· != '_')))).any fun x => !x.isInf || Decimal.isNegative x

/-- A decimal fraction or a number with an exponent, which may be beyond the doubles only if it is negative, or one of
the names for values that are neither. -/
def isReal (cs : List Char) : Bool :=
  let body := (takeSign cs).2
  if body == ['i', 'n', 'f'] || body == ['n', 'a', 'n'] then true
  else
    let isMark (c : Char) : Bool := c == 'e' || c == 'E'
    let mantissa := body.takeWhile fun c => !isMark c
    let exponentOk :=
      match body.dropWhile fun c => !isMark c with
      | [] => true
      | _ :: e => (ungroup isDigit (takeSign e).2).isSome
    let fractionOk :=
      match mantissa.dropWhile (· != '.') with
      | [] => mantissa.length < body.length
      | _ :: f => (ungroup isDigit f).isSome
    (decimalDigits (mantissa.takeWhile (· != '.'))).isSome && fractionOk && exponentOk && isInRange cs

/-- Takes a number of `count` digits that lies in a range. -/
def takeNumber (count low high : Nat) (cs : List Char) : Option (Nat × List Char) :=
  let digits := cs.take count
  let n := digitsValue digits 0
  if digits.length = count ∧ digits.all isDigit ∧ low ≤ n ∧ n ≤ high then some (n, cs.drop count) else none

/-- The text after a character that it must start with. -/
def dropMark (mark : Char) : List Char → Option (List Char)
  | c :: cs => if c = mark then some cs else none
  | [] => none

/-- The number of days of a month. -/
def daysOf (year month : Nat) : Nat :=
  if month = 2 then (if year % 4 = 0 ∧ (year % 100 ≠ 0 ∨ year % 400 = 0) then 29 else 28)
  else if month ∈ [4, 6, 9, 11] then 30 else 31

/-- The text after a date. -/
def dropDate (cs : List Char) : Option (List Char) := do
  let (year, rest) ← takeNumber 4 0 9999 cs
  let (month, rest) ← takeNumber 2 1 12 (← dropMark '-' rest)
  let (_, rest) ← takeNumber 2 1 (daysOf year month) (← dropMark '-' rest)
  some rest

/-- The text after a time of day, whose seconds may have a fraction. -/
def dropTime (cs : List Char) : Option (List Char) := do
  let (_, rest) ← takeNumber 2 0 23 cs
  let (_, rest) ← takeNumber 2 0 59 (← dropMark ':' rest)
  let (_, rest) ← takeNumber 2 0 60 (← dropMark ':' rest)
  match rest with
  | '.' :: f => if (f.takeWhile isDigit).isEmpty then none else some (f.dropWhile isDigit)
  | rest => some rest

/-- The text after hours and minutes. -/
def dropHours (cs : List Char) : Option (List Char) := do
  let (_, rest) ← takeNumber 2 0 23 cs
  let (_, rest) ← takeNumber 2 0 59 (← dropMark ':' rest)
  some rest

/-- The rest is an offset from universal time, or nothing. -/
def isOffset (cs : List Char) : Bool :=
  match cs with
  | [] => true
  | ['Z'] => true
  | ['z'] => true
  | c :: rest => (c == '+' || c == '-') && dropHours rest == some []

/-- A date, a time of day, or both. -/
def isMoment (cs : List Char) : Bool :=
  match dropDate cs with
  | some [] => true
  | some (c :: rest) => (c == 'T' || c == 't' || c == ' ') && (dropTime rest).any isOffset
  | none => dropTime cs == some []

/-- The characters of a value without quotes. -/
def isTokenChar (c : Char) : Bool := isKeyChar c || c == '+' || c == '.' || c == ':'

/-- The characters of a value without quotes; a date may be followed by one blank and a time. -/
def takeToken (cs : List Char) : List Char × List Char :=
  let word := cs.takeWhile isTokenChar
  match cs.dropWhile isTokenChar with
  | ' ' :: rest =>
    if isMoment word && word.length == 10 && (rest.head?.any isDigit) then
      (word ++ ' ' :: rest.takeWhile isTokenChar, rest.dropWhile isTokenChar)
    else (word, ' ' :: rest)
  | rest => (word, rest)

/-- The value of a text without quotes. -/
def tokenValue (word : List Char) : Option Value :=
  if word == ['t', 'r', 'u', 'e'] then some (.flag true)
  else if word == ['f', 'a', 'l', 's', 'e'] then some (.flag false)
  else
    match integerOf word with
    | some n => some (.integer n)
    | none => if isReal word then some .real else if isMoment word then some .moment else none

/-! ## Values and lines -/

mutual

/-- A value inside a number of brackets and braces. -/
def readValue : (fuel : Nat) → (depth : Nat) → List Char → Option (Value × List Char)
  | 0, _, _ => none
  | fuel + 1, depth, cs =>
    match cs with
    | '"' :: '"' :: '"' :: rest => (readLongText '"' rest).map fun (s, rest) => (.text s, rest)
    | '\'' :: '\'' :: '\'' :: rest => (readLongText '\'' rest).map fun (s, rest) => (.text s, rest)
    | '"' :: rest => (readShort '"' rest).map fun (s, rest) => (.text s, rest)
    | '\'' :: rest => (readShort '\'' rest).map fun (s, rest) => (.text s, rest)
    | '[' :: rest =>
      if depth + 1 < maxDepth then
        (readItems fuel (depth + 1) [] rest).map fun (items, rest) => (.list items, rest)
      else none
    | '{' :: rest =>
      if depth + 1 < maxDepth then
        match skipGap rest with
        | '}' :: rest => some (.table .inline [], rest)
        | rest => (readEntries fuel (depth + 1) [] rest).map fun (entries, rest) => (.table .inline entries, rest)
      else none
    | cs =>
      let (word, rest) := takeToken cs
      (tokenValue word).map fun v => (v, rest)

/-- The items of a list after those in `done`, up to its bracket; the last one may be followed by a comma. -/
def readItems : (fuel : Nat) → (depth : Nat) → List Value → List Char → Option (List Value × List Char)
  | 0, _, _, _ => none
  | fuel + 1, depth, done, cs =>
    match skipEmpty cs with
    | ']' :: rest => some (done, rest)
    | cs => do
      let (v, rest) ← readValue fuel depth cs
      match skipEmpty rest with
      | ',' :: rest => readItems fuel depth (done ++ [v]) rest
      | ']' :: rest => some (done ++ [v], rest)
      | _ => none

/-- The entries of an inline table after those in `done`, up to its brace. -/
def readEntries : (fuel : Nat) → (depth : Nat) → Entries → List Char → Option (Entries × List Char)
  | 0, _, _, _ => none
  | fuel + 1, depth, done, cs => do
    let ((path, name), rest) ← takeKey cs
    match rest with
    | '=' :: rest =>
      let (v, rest) ← readValue fuel depth (skipGap rest)
      let done ← addKey [] path name v done
      match skipGap rest with
      | ',' :: rest => readEntries fuel depth done rest
      | '}' :: rest => some (done, rest)
      | _ => none
    | _ => none

end

/-- The lines of a document, added to `root`; keys go into the table at `current`. -/
def readLines : (fuel : Nat) → (current : List String) → (root : Entries) → List Char → Option Entries
  | 0, _, _, _ => none
  | fuel + 1, current, root, cs =>
    match skipEmpty cs with
    | [] => some root
    | '[' :: '[' :: rest => do
      let ((path, name), rest) ← takeKey rest
      match rest with
      | ']' :: ']' :: rest => readLines fuel (path ++ [name]) (← openItem path name root) (← finishLine rest)
      | _ => none
    | '[' :: rest => do
      let ((path, name), rest) ← takeKey rest
      match rest with
      | ']' :: rest => readLines fuel (path ++ [name]) (← openTable path name root) (← finishLine rest)
      | _ => none
    | cs => do
      let ((path, name), rest) ← takeKey cs
      match rest with
      | '=' :: rest =>
        let (v, rest) ← readValue (2 * rest.length + 2) 0 (skipGap rest)
        readLines fuel current (← addKey current path name v root) (← finishLine rest)
      | _ => none

/-- The table of a text, which may start with a byte order mark. -/
def parse? (text : String) : Option Value :=
  let cs :=
    match text.toList with
    | '\ufeff' :: cs => cs
    | cs => cs
  (readLines (cs.length + 1) [] [] cs).map (.table .header)

end SolverClient.Toml
