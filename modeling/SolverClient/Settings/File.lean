import SolverClient.Settings.Basic
import SolverClient.Toml.Reader
import SolverClient.Yaml.Node

/-!
# Settings files

Settings read from a file of one of two formats. Both hold a table of settings, each of which may be left out;
other keys are ignored. In TOML a value has the type that it is written in, a list gives the first of the settings
in order, and a moment in time counts as a table without settings. In YAML a text may be any scalar, while a number
or a truth value is a plain one; an empty plain scalar counts as a table without settings, but a list is no table.
-/

namespace SolverClient

namespace Toml

/-- How the values of a document are read as settings. -/
def settingsFormat : Settings.Format Value where
  text
    | .text s => some s
    | _ => none
  optionalText
    | .text s => some (some s)
    | _ => none
  count bound
    | .integer n => if 0 ≤ n ∧ n < bound then some n.toNat else none
    | _ => none
  flag
    | .flag b => some b
    | _ => none
  record keys
    | .table _ entries => some entries
    | .list items => some (keys.zip items)
    | .tables items => some (keys.zip (items.map (.table .header)))
    | .moment => some []
    | _ => none

end Toml

namespace Yaml

open SolverClient.Text

/-- A count in decimal digits without a leading zero, or after a mark of its base; a plus sign may come first. -/
def countOf (cs : List Char) : Option Nat :=
  let based (base : Nat) (ds : List Char) : Option Nat := do
    if ds.isEmpty then none
    else
      let values ← ds.mapM hexValue
      if values.all (· < base) then some (values.foldl (fun n v => base * n + v) 0) else none
  let body :=
    match cs with
    | '+' :: rest => rest
    | rest => rest
  match body with
  | '0' :: 'x' :: ds => based 16 ds
  | '0' :: 'o' :: ds => based 8 ds
  | '0' :: 'b' :: ds => based 2 ds
  | '0' :: _ :: _ => none
  | ds => based 10 ds

/-- The truth value of a plain scalar. -/
def flagOf (s : String) : Option Bool :=
  if s ∈ ["true", "True", "TRUE"] then some true
  else if s ∈ ["false", "False", "FALSE"] then some false
  else none

/-- The plain scalars that stand for nothing. -/
def isNothing (s : String) : Bool := s ∈ ["~", "null", "Null", "NULL"]

/-- The tag of a type of the format's own. -/
def ownTag (name : String) : String := "tag:yaml.org,2002:" ++ name

/-- A scalar may be a value of a type other than text: a plain one, and a block with the tag of the type. -/
def Scalar.isTyped (name : String) (s : Scalar) : Bool :=
  s.style == .plain || (s.style == .literal && s.tag == some (ownTag name))

/-- A text that may be nothing: a plain scalar that says so, where a tag makes it a text again, and the tag of nothing
admits no text. -/
def Scalar.optionalText (s : Scalar) : Option (Option String) :=
  if s.style ≠ .plain then some (some s.text)
  else
    match s.tag with
    | none => some (if s.text = "" ∨ isNothing s.text then none else some s.text)
    | some tag =>
      if tag ≠ ownTag "null" then some (some s.text)
      else if isNothing s.text then some none
      else none

namespace Document

/-- The scalar that a node is. -/
def scalar? (d : Document) (n : Node) : Option Scalar :=
  match d.resolve n with
  | .scalar s => some s
  | _ => none

/-- The entries of a table whose keys are scalars; none of the given keys may come twice. -/
def recordOf (d : Document) (keys : List String) (entries : List (Node × Node)) : Option (OrderedMap Node) := do
  let named ← entries.mapM fun (key, value) => (d.scalar? key).map fun s => (s.text, value)
  if keys.all fun key => named.countP (·.1 == key) ≤ 1 then some named else none

/-- How the nodes of a document are read as settings. -/
def settingsFormat (d : Document) : Settings.Format Node where
  text n := (d.scalar? n).map (·.text)
  optionalText n := (d.scalar? n).bind Scalar.optionalText
  count bound n :=
    ((d.scalar? n).filter (Scalar.isTyped "int")).bind fun s => (countOf s.text.toList).filter (· < bound)
  flag n := ((d.scalar? n).filter (Scalar.isTyped "bool")).bind fun s => flagOf s.text
  record keys n :=
    match d.resolve n with
    | .table entries => d.recordOf keys entries
    | .scalar s => if s.style = .plain ∧ s.text = "" then some [] else none
    | _ => none

end Document

end Yaml

namespace Settings

/-- The settings of a text in TOML. -/
def ofToml (text : String) : Except SettingsError Settings :=
  match (Toml.parse? text).bind (read Toml.settingsFormat) with
  | some s => .ok s
  | none => .error .badToml

/-- The settings of a text in YAML. -/
def ofYaml (text : String) : Except SettingsError Settings :=
  match (Yaml.Document.parse? text).bind fun d => read d.settingsFormat d.root with
  | some s => .ok s
  | none => .error .badYaml

/-- The formats of settings files. -/
inductive FileFormat where
  | toml
  | yaml
  deriving DecidableEq

/-- The settings of a file, from its contents, or from nothing if it cannot be read. -/
def ofFile (format : FileFormat) : Option String → Except SettingsError Settings
  | none => .error .noFile
  | some text =>
    match format with
    | .toml => ofToml text
    | .yaml => ofYaml text

end Settings

end SolverClient
