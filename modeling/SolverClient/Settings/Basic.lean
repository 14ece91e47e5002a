import SolverClient.Json.Basic
import SolverClient.Searcher
import SolverClient.Text.Blank

/-!
# Settings of a client

Where the solver is reached, how long to wait for it, and how to search when a caller does not say. Settings are
checked once all of them are known, and the address of a command is the endpoint with the command after exactly
one slash.
-/

namespace SolverClient

/-- How to search when a caller does not say. -/
structure SolveSettings where
  searcher : Searcher := .standard
  limit : Nat := 1
  deriving DecidableEq

/-- The settings of a client. -/
structure Settings where
  endpoint : String := ""
  /-- Seconds to wait for a reply. -/
  timeout : Nat := 3600
  /-- The certificate of the solver is checked. -/
  verify : Bool := true
  solve : SolveSettings := {}
  logFilter : Option String := none
  deriving DecidableEq

/-- What is wrong with settings. -/
inductive SettingsFault where
  | emptyEndpoint
  | limitZero
  deriving DecidableEq

/-- The sentence for a fault. -/
def SettingsFault.sentence : SettingsFault → String
  | emptyEndpoint => "endpoint must not be empty"
  | limitZero => "solve.solution_limit must be at least 1"

/-- Why there are no settings. -/
inductive SettingsError where
  /-- The file cannot be read. -/
  | noFile
  | badToml
  | badYaml
  | invalid (fault : SettingsFault)
  deriving DecidableEq

/-- The message for settings that are not there. -/
def SettingsError.message : SettingsError → String
  | noFile => "IO error: the file cannot be read"
  | badToml => "TOML parse error: no settings in the text"
  | badYaml => "YAML parse error: no settings in the text"
  | invalid fault => "Invalid configuration: " ++ fault.sentence

namespace Settings

/-- Settings for an endpoint. -/
def ofEndpoint (endpoint : String) : Settings := { endpoint }

/-- The settings with another search. -/
def withSearcher (s : Settings) (searcher : Searcher) : Settings := { s with solve := { s.solve with searcher } }

/-- The settings with another number of solutions. -/
def withLimit (s : Settings) (limit : Nat) : Settings := { s with solve := { s.solve with limit } }

/-- Refuses an endpoint of blanks only and a limit of zero. -/
def validate (s : Settings) : Except SettingsError Unit :=
  if Text.trim s.endpoint = "" then .error (.invalid .emptyEndpoint)
  else if s.solve.limit = 0 then .error (.invalid .limitZero)
  else .ok ()

/-- The character between the parts of an address. -/
def isSlash (c : Char) : Bool := c == '/'

/-- The address of a command. -/
def commandAddress (s : Settings) (command : String) : String :=
  String.ofList ((s.endpoint.toList.reverse.dropWhile isSlash).reverse ++ '/' :: command.toList.dropWhile isSlash)

/-- The settings as an object. -/
def toJson (s : Settings) : Json :=
  .obj [("endpoint", .str s.endpoint), ("timeout_seconds", .int s.timeout), ("ssl_verify", .bool s.verify),
    ("solve", .obj [("searcher", .str s.solve.searcher.tag), ("solution_limit", .int s.solve.limit)]),
    ("log_filter", .ofString? s.logFilter)]

/-- How the values of a format are read. -/
structure Format (ν : Type) where
  text : ν → Option String
  optionalText : ν → Option (Option String)
  /-- A count below a bound. -/
  count : Nat → ν → Option Nat
  flag : ν → Option Bool
  /-- The entries of a record with the given keys. -/
  record : List String → ν → Option (OrderedMap ν)

section Reading

variable {ν : Type}

/-- The value under a key, or a standard one. -/
def fieldOr {α : Type} (entries : OrderedMap ν) (key : String) (standard : α) (read : ν → Option α) : Option α :=
  match entries.get? key with
  | none => some standard
  | some v => read v

/-- How to search, from a value of a format. A search may be named in any case. -/
def readSolve (f : Format ν) (v : ν) : Option SolveSettings := do
  let entries ← f.record ["searcher", "solution_limit"] v
  let searcher ← fieldOr entries "searcher" .standard fun v => (f.text v).bind Searcher.read?
  let limit ← fieldOr entries "solution_limit" 1 (f.count Word.bound32)
  return ⟨searcher, limit⟩

/-- The settings, from a value of a format. -/
def read (f : Format ν) (v : ν) : Option Settings := do
  let entries ← f.record ["endpoint", "timeout_seconds", "ssl_verify", "solve", "log_filter"] v
  let endpoint ← fieldOr entries "endpoint" "" f.text
  let timeout ← fieldOr entries "timeout_seconds" 3600 (f.count Word.bound64)
  let verify ← fieldOr entries "ssl_verify" true f.flag
  let solve ← fieldOr entries "solve" {} (readSolve f)
  let logFilter ← fieldOr entries "log_filter" none f.optionalText
  return ⟨endpoint, timeout, verify, solve, logFilter⟩

end Reading

end Settings

end SolverClient
