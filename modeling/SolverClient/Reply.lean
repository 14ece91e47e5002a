import SolverClient.Solution.Record

/-!
# Replies of the solver

Every reply is one value. Its envelope says whether the command succeeded, with a message and a content; what is
left out takes a standard value. The content of a reply that reports a failure is never read as solutions or
explanations. Solutions are read without bounds (`Reply.solutions`), as the reader that counts in words is to read
them where it can.
-/

namespace SolverClient

/-- A reply of the solver. -/
structure Reply where
  payload : Json

namespace Reply

/-- The status of a command that succeeded. -/
def okStatus : String := "Ok"

/-- A text of the payload. -/
def string? (r : Reply) (key : String) : Option String := (r.payload.get? key).bind Json.asString?

/-- An integer of the payload, or `-1`. -/
def integerOr (r : Reply) (key : String) : Int := ((r.payload.get? key).bind Json.asInt?).getD (-1)

/-- The status; without one the command succeeded. -/
def status (r : Reply) : String := (r.string? "status").getD okStatus

/-- The command succeeded. -/
def isOk (r : Reply) : Bool := r.status == okStatus

/-- The message, or an empty one. -/
def message (r : Reply) : String := (r.string? "message").getD ""

/-- The content, or the whole payload if there is none. -/
def content (r : Reply) : Json := (r.payload.get? "content").getD r.payload

/-- The payload as text; a payload that is a text stands for itself. -/
def text (r : Reply) : String := r.payload.asString?.getD r.payload.render

/-- What the solver calls its state, or nothing. -/
def kind (r : Reply) : String := (r.string? "type").getD ""

/-- The code of its state. -/
def code (r : Reply) : Int := r.integerOr "code"

/-- It is at work. -/
def isBusy (r : Reply) : Bool := ((r.payload.get? "busy_node").bind Json.asBool?).getD false

/-- The number of solutions that it has found. -/
def solutionsFound (r : Reply) : Int := r.integerOr "current_solution_found"

/-- The solutions of the content, unless the reply reports a failure. -/
def solutions (r : Reply) : Except SolutionError (Option (List Solution)) :=
  if r.isOk then
    match r.content with
    | .arr entries => (entries.mapM Solution.ofJson).map some
    | _ => .error (.malformedReply .notSolutions)
  else .ok none

end Reply

/-- The values of an object under the given keys, or the items of an array that has just as many. -/
def tupleOf (keys : List String) : Json → Option (List Json)
  | .obj d => keys.mapM fun key => OrderedMap.get? d key
  | .arr items => if items.length = keys.length then some items else none
  | _ => none

/-- The version of the solver. -/
structure Version where
  app : String
  author : String
  version : String
  major : Int
  minor : Int
  build : Int
  release : String
  deriving DecidableEq

namespace Version

/-- The keys of a version, in order. -/
def keys : List String :=
  ["app", "author", "version", "version_major", "version_minor", "version_build", "version_release"]

/-- The version that a value holds. -/
def ofJson? (v : Json) : Option Version := do
  match ← tupleOf keys v with
  | [app, author, version, major, minor, build, release] =>
    some ⟨← app.asString?, ← author.asString?, ← version.asString?, ← major.asInt?, ← minor.asInt?, ← build.asInt?,
      ← release.asString?⟩
  | _ => none

end Version

/-- What the solver says of a variable or a constraint. -/
structure Explanation where
  name : String
  kind : String
  text : String
  deriving DecidableEq

namespace Explanation

/-- The keys of an explanation, in order. -/
def keys : List String := ["name", "type", "explanation"]

/-- The explanation that a value holds. -/
def ofJson? (v : Json) : Option Explanation := do
  match ← tupleOf keys v with
  | [name, kind, text] => some ⟨← name.asString?, ← kind.asString?, ← text.asString?⟩
  | _ => none

/-- The explanations of a kind by name, the last one of a name in the place of the first. -/
def ofKind (kind : String) (entries : List Explanation) : OrderedMap Explanation :=
  OrderedMap.ofEntries ((entries.filter (·.kind == kind)).map fun e => (e.name, e))

/-- The explanations of variables. -/
def ofVariables (entries : List Explanation) : OrderedMap Explanation := ofKind "var" entries

/-- The explanations of constraints. -/
def ofConstraints (entries : List Explanation) : OrderedMap Explanation := ofKind "constraint" entries

end Explanation

namespace Reply

/-- The version, which stands in the payload itself. -/
def version (r : Reply) : Except SolutionError Version :=
  match Version.ofJson? r.payload with
  | some v => .ok v
  | none => .error (.malformedReply .notVersion)

/-- The explanations of the content, unless the reply reports a failure. -/
def explanations (r : Reply) : Except SolutionError (Option (List Explanation)) :=
  if r.isOk then
    match r.content.asArray?.bind fun items => items.mapM Explanation.ofJson? with
    | some entries => .ok (some entries)
    | none => .error (.malformedReply .notExplanation)
  else .ok none

end Reply

end SolverClient
