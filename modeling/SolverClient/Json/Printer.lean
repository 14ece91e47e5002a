import SolverClient.Decimal.Format
import SolverClient.Json.Basic

/-!
# Compact JSON text

The text of a value without any blanks. Strings escape the quote, the backslash and the control characters; all
other characters stand for themselves. A double is set plainly from five places after the point up to sixteen
digits before it; one that is not finite has no JSON text and becomes null.
-/

namespace SolverClient.Json

open SolverClient.Decimal

/-- The layout of doubles in documents. -/
def documentFormat : Format := ⟨-5, 15, true, .toEven⟩

/-- The digit of a value below sixteen. -/
def hexDigit (n : Nat) : Char := Nat.digitChar n

/-- A character inside a string. -/
def escapeChar (c : Char) : List Char :=
  if c = '"' then ['\\', '"']
  else if c = '\\' then ['\\', '\\']
  else if c = '\n' then ['\\', 'n']
  else if c = '\r' then ['\\', 'r']
  else if c = '\t' then ['\\', 't']
  else if c = '\x08' then ['\\', 'b']
  else if c = '\x0c' then ['\\', 'f']
  else if c.toNat < 0x20 then ['\\', 'u', '0', '0', hexDigit (c.toNat / 16), hexDigit (c.toNat % 16)]
  else [c]

/-- A string with its quotes. -/
def quote (s : String) : String := "\"" ++ String.ofList (s.toList.flatMap escapeChar) ++ "\""

/-- A double, or null if it is not finite. -/
def floatText (x : Float) : String := if x.isFinite then finiteText documentFormat x else "null"

mutual

/-- The compact text of a value. -/
def render : Json → String
  | null => "null"
  | bool b => if b then "true" else "false"
  | int n => toString n
  | float x => floatText x
  | str s => quote s
  | arr items => "[" ++ ",".intercalate (renderItems items) ++ "]"
  | obj d => "\x7b" ++ ",".intercalate (renderFields d) ++ "\x7d"

/-- The texts of the items of an array. -/
def renderItems : List Json → List String
  | [] => []
  | v :: items => render v :: renderItems items

/-- The texts of the entries of an object. -/
def renderFields : List (String × Json) → List String
  | [] => []
  | (key, v) :: d => (quote key ++ ":" ++ render v) :: renderFields d

end

end SolverClient.Json
