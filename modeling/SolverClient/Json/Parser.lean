import SolverClient.Json.Number

/-!
# Reading JSON text

A strict reader: blanks are space, tab, line feed and carriage return; nothing may follow the value; control
characters in strings are written as escapes, and an escape that is half of a surrogate pair stands beside its
other half. Containers may be nested to a depth of 127. A key that comes twice keeps its first place and takes
its last value.

The readers are total by a fuel that the text's length bounds; `parse?` hides it.
-/

namespace SolverClient.Json

open SolverClient.Text

/-- The blanks of JSON text. -/
def isGap (c : Char) : Bool := c == ' ' || c == '\t' || c == '\n' || c == '\r'

/-- The text after leading blanks. -/
def skipGaps (cs : List Char) : List Char := cs.dropWhile isGap

/-- The text after a word that it must start with. -/
def dropWord : List Char → List Char → Option (List Char)
  | [], cs => some cs
  | w :: ws, c :: cs => if w = c then dropWord ws cs else none
  | _ :: _, [] => none

/-- A code unit of four hexadecimal digits. -/
def readUnit : List Char → Option (Nat × List Char)
  | a :: b :: c :: d :: rest => do
    let n := [← hexValue a, ← hexValue b, ← hexValue c, ← hexValue d].foldl (fun n v => 16 * n + v) 0
    some (n, rest)
  | _ => none

/-- The character of an escape of code units, after its first `u`. -/
def readUnitEscape (cs : List Char) : Option (Char × List Char) := do
  let (high, rest) ← readUnit cs
  if 0xDC00 ≤ high && high < 0xE000 then none
  else if 0xD800 ≤ high && high < 0xDC00 then
    match rest with
    | '\\' :: 'u' :: rest =>
      let (low, rest) ← readUnit rest
      if 0xDC00 ≤ low && low < 0xE000 then
        some (Char.ofNat (0x10000 + (high - 0xD800) * 0x400 + (low - 0xDC00)), rest)
      else none
    | _ => none
  else some (Char.ofNat high, rest)

/-- The character of an escape, after its backslash. -/
def readEscape : List Char → Option (Char × List Char)
  | '"' :: cs => some ('"', cs)
  | '\\' :: cs => some ('\\', cs)
  | '/' :: cs => some ('/', cs)
  | 'b' :: cs => some ('\x08', cs)
  | 'f' :: cs => some ('\x0c', cs)
  | 'n' :: cs => some ('\n', cs)
  | 'r' :: cs => some ('\r', cs)
  | 't' :: cs => some ('\t', cs)
  | 'u' :: cs => readUnitEscape cs
  | _ => none

/-- The characters of a string up to its closing quote, in reverse onto `done`. -/
def readChars : (fuel : Nat) → List Char → List Char → Option (List Char × List Char)
  | 0, _, _ => none
  | _ + 1, _, [] => none
  | fuel + 1, done, c :: cs =>
    if c = '"' then some (done, cs)
    else if c = '\\' then do
      let (e, rest) ← readEscape cs
      readChars fuel (e :: done) rest
    else if c.toNat < 0x20 then none
    else readChars fuel (c :: done) cs

/-- A string after its opening quote. -/
def readString (cs : List Char) : Option (String × List Char) :=
  (readChars (cs.length + 1) [] cs).map fun (done, rest) => (String.ofList done.reverse, rest)

mutual

/-- A value, with at most `depth` containers inside one another. -/
def readValue : (fuel depth : Nat) → List Char → Option (Json × List Char)
  | 0, _, _ => none
  | fuel + 1, depth, cs =>
    match skipGaps cs with
    | '"' :: rest => (readString rest).map fun (s, rest) => (.str s, rest)
    | '[' :: rest =>
      match depth, skipGaps rest with
      | 0, _ => none
      | _ + 1, ']' :: rest => some (.arr [], rest)
      | depth + 1, rest => (readItems fuel depth [] rest).map fun (items, rest) => (.arr items.reverse, rest)
    | '{' :: rest =>
      match depth, skipGaps rest with
      | 0, _ => none
      | _ + 1, '}' :: rest => some (.obj [], rest)
      | depth + 1, rest => (readFields fuel depth [] rest).map fun (d, rest) => (.obj d, rest)
    | 't' :: rest => (dropWord ['r', 'u', 'e'] rest).map fun rest => (.bool true, rest)
    | 'f' :: rest => (dropWord ['a', 'l', 's', 'e'] rest).map fun rest => (.bool false, rest)
    | 'n' :: rest => (dropWord ['u', 'l', 'l'] rest).map fun rest => (.null, rest)
    | cs => do
      let (literal, rest) ← NumberLiteral.read? cs
      some (← literal.value?, rest)

/-- The items of an array from one on, in reverse onto `done`. -/
def readItems : (fuel depth : Nat) → List Json → List Char → Option (List Json × List Char)
  | 0, _, _, _ => none
  | fuel + 1, depth, done, cs => do
    let (v, rest) ← readValue fuel depth cs
    match skipGaps rest with
    | ',' :: rest => readItems fuel depth (v :: done) rest
    | ']' :: rest => some (v :: done, rest)
    | _ => none

/-- The entries of an object from one on, added to `done`. -/
def readFields : (fuel depth : Nat) → Fields → List Char → Option (Fields × List Char)
  | 0, _, _, _ => none
  | fuel + 1, depth, done, cs =>
    match skipGaps cs with
    | '"' :: rest => do
      let (key, rest) ← readString rest
      match skipGaps rest with
      | ':' :: rest =>
        let (v, rest) ← readValue fuel depth rest
        match skipGaps rest with
        | ',' :: rest => readFields fuel depth (done.insert key v) rest
        | '}' :: rest => some (done.insert key v, rest)
        | _ => none
      | _ => none
    | _ => none

end

/-- The greatest depth of containers. -/
def maxDepth : Nat := 127

/-- The value that a text holds, if it is JSON text. -/
def parse? (text : String) : Option Json := do
  let cs := text.toList
  let (v, rest) ← readValue (2 * cs.length + 2) maxDepth cs
  if (skipGaps rest).isEmpty then some v else none

end SolverClient.Json
