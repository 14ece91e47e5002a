import SolverClient.OrderedMap
import SolverClient.Yaml.Token

/-!
# YAML documents

The tokens of a text as a tree of scalars, lists and tables (`Document.parse?`). A node may be anchored, and an alias
stands for the node of an anchor, which may even be one that holds the alias; so anchors are numbered, and a document
says which node a number means (`Document.resolve`). A text holds at most one document.

The readers are total by a fuel that the number of tokens bounds.
-/

namespace SolverClient.Yaml

/-- A scalar with its tag, if it has one. -/
structure Scalar where
  style : Style
  tag : Option String
  text : String
  deriving DecidableEq

/-- A node of a document. -/
inductive Node where
  | scalar (s : Scalar)
  | list (items : List Node)
  | table (entries : List (Node × Node))
  | alias (anchor : Nat)
  | anchored (anchor : Nat) (node : Node)

/-- A node that is not there, with a tag that is. -/
def Node.missing (tag : Option String) : Node := .scalar ⟨.plain, tag, ""⟩

/-- A node that is not there. -/
def Node.empty : Node := .missing none

/-! ## Tags and anchors -/

/-- What the handles of tags stand for. -/
abbrev Handles := OrderedMap String

/-- The handles that need no directive. -/
def Handles.standard : Handles := [("!", "!"), ("!!", "tag:yaml.org,2002:")]

/-- The whole tag. -/
def Tag.resolve (handles : Handles) (t : Tag) : Option String :=
  if t.handle = "" then some t.suffix else (handles.get? t.handle).map (· ++ t.suffix)

/-- What is still to be read, and the numbers of the anchors read so far. -/
structure Cursor where
  tokens : List Token
  anchors : OrderedMap Nat

/-- The cursor at other tokens. -/
def Cursor.moveTo (c : Cursor) (tokens : List Token) : Cursor := { c with tokens }

/-- An anchor and a tag in either order. -/
def takeProperties : List Token → Option String × Option Tag × List Token
  | .anchor name :: .tag t :: ts => (some name, some t, ts)
  | .tag t :: .anchor name :: ts => (some name, some t, ts)
  | .anchor name :: ts => (some name, none, ts)
  | .tag t :: ts => (none, some t, ts)
  | ts => (none, none, ts)

/-! ## The kinds of tokens after which a node is missing -/

/-- No item follows a dash. -/
def endsItem : List Token → Bool
  | .item :: _ => true
  | .blockEnd :: _ => true
  | _ => false

/-- No key or value follows its mark in a block table. -/
def endsEntry : List Token → Bool
  | .key :: _ => true
  | .value :: _ => true
  | .blockEnd :: _ => true
  | _ => false

/-- No key follows its mark in a flow collection. -/
def endsFlowKey : List Token → Bool
  | .value :: _ => true
  | .comma :: _ => true
  | .flowListEnd :: _ => true
  | .flowTableEnd :: _ => true
  | _ => false

/-- No value follows its mark in a flow collection. -/
def endsFlowValue : List Token → Bool
  | .comma :: _ => true
  | .flowListEnd :: _ => true
  | .flowTableEnd :: _ => true
  | _ => false

/-! ## Nodes -/

mutual

/-- A node with its properties. In a `block` it may be a block collection, and as an `entry` of a block table it may
be a list whose dashes stand in the column of the table. -/
def readNode (handles : Handles) (block entry : Bool) : (fuel : Nat) → Cursor → Option (Node × Cursor)
  | 0, _ => none
  | fuel + 1, c =>
    match c.tokens with
    | .alias name :: ts => (c.anchors.get? name).map fun a => (.alias a, c.moveTo ts)
    | _ => do
      let (anchor, tag, ts) := takeProperties c.tokens
      let tag ← match tag with
        | some t => (t.resolve handles).map some
        | none => some none
      match anchor with
      | none => readContent handles block entry tag (tag.isSome) fuel (c.moveTo ts)
      | some name =>
        let number := c.anchors.length
        let (node, c) ← readContent handles block entry tag true fuel ⟨ts, c.anchors.insert name number⟩
        some (.anchored number node, c)

/-- A node after its properties. It may be missing if there are any. -/
def readContent (handles : Handles) (block entry : Bool) (tag : Option String) (mayMiss : Bool) :
    (fuel : Nat) → Cursor → Option (Node × Cursor)
  | 0, _ => none
  | fuel + 1, c =>
    let missing : Option (Node × Cursor) := if mayMiss then some (.missing tag, c) else none
    let list (r : List Node × Cursor) : Node × Cursor := (.list r.1, r.2)
    let table (r : List (Node × Node) × Cursor) : Node × Cursor := (.table r.1, r.2)
    match c.tokens with
    | .scalar style text :: ts => some (.scalar ⟨style, tag.filter (· != "!"), text⟩, c.moveTo ts)
    | .flowList :: ts => (readFlowItems handles true [] fuel (c.moveTo ts)).map list
    | .flowTable :: ts => (readFlowEntries handles true [] fuel (c.moveTo ts)).map table
    | .item :: _ => if entry then (readEntryItems handles [] fuel c).map list else missing
    | .blockList :: ts => if block then (readItems handles [] fuel (c.moveTo ts)).map list else missing
    | .blockTable :: ts => if block then (readEntries handles [] fuel (c.moveTo ts)).map table else missing
    | _ => missing

/-- The items of a block list after those in `done`, up to the end of its block. -/
def readItems (handles : Handles) (done : List Node) : (fuel : Nat) → Cursor → Option (List Node × Cursor)
  | 0, _ => none
  | fuel + 1, c =>
    match c.tokens with
    | .item :: ts => do
      let (node, c) ←
        if endsItem ts then some (.empty, c.moveTo ts)
        else readNode handles true false fuel (c.moveTo ts)
      readItems handles (done ++ [node]) fuel c
    | .blockEnd :: ts => some (done, c.moveTo ts)
    | _ => none

/-- The items of a block list in the column of its table, after those in `done`. -/
def readEntryItems (handles : Handles) (done : List Node) : (fuel : Nat) → Cursor → Option (List Node × Cursor)
  | 0, _ => none
  | fuel + 1, c =>
    match c.tokens with
    | .item :: ts => do
      let (node, c) ←
        if endsItem ts || endsEntry ts then some (.empty, c.moveTo ts)
        else readNode handles true false fuel (c.moveTo ts)
      readEntryItems handles (done ++ [node]) fuel c
    | _ => some (done, c)

/-- The entries of a block table after those in `done`, up to the end of its block. -/
def readEntries (handles : Handles) (done : List (Node × Node)) :
    (fuel : Nat) → Cursor → Option (List (Node × Node) × Cursor)
  | 0, _ => none
  | fuel + 1, c =>
    match c.tokens with
    | .key :: ts => do
      let (key, c) ←
        if endsEntry ts then some (.empty, c.moveTo ts)
        else readNode handles true true fuel (c.moveTo ts)
      let (value, c) ←
        match c.tokens with
        | .value :: ts =>
          if endsEntry ts then some (.empty, c.moveTo ts)
          else readNode handles true true fuel (c.moveTo ts)
        | _ => some (.empty, c)
      readEntries handles (done ++ [(key, value)]) fuel c
    | .blockEnd :: ts => some (done, c.moveTo ts)
    | _ => none

/-- The value of an entry of a flow collection, from the colon on, or none if there is no colon. -/
def readFlowValue (handles : Handles) : (fuel : Nat) → Cursor → Option (Node × Cursor)
  | 0, _ => none
  | fuel + 1, c =>
    match c.tokens with
    | .value :: ts =>
      if endsFlowValue ts then some (.empty, c.moveTo ts) else readNode handles false false fuel (c.moveTo ts)
    | _ => some (.empty, c)

/-- The items of a flow list after those in `done`, up to its bracket. An item with a key is a table of one entry;
where the key is missing the token in its place is passed over. -/
def readFlowItems (handles : Handles) (first : Bool) (done : List Node) :
    (fuel : Nat) → Cursor → Option (List Node × Cursor)
  | 0, _ => none
  | fuel + 1, c =>
    match first, c.tokens with
    | _, .flowListEnd :: ts => some (done, c.moveTo ts)
    | false, .comma :: .flowListEnd :: ts => some (done, c.moveTo ts)
    | false, .comma :: ts => readFlowItem handles done fuel (c.moveTo ts)
    | false, _ => none
    | true, _ => readFlowItem handles done fuel c

/-- An item of a flow list after those in `done`, and the items after it. -/
def readFlowItem (handles : Handles) (done : List Node) : (fuel : Nat) → Cursor → Option (List Node × Cursor)
  | 0, _ => none
  | fuel + 1, c => do
    let (node, c) ←
      match c.tokens with
      | .key :: ts =>
        let (key, c) ←
          match ts with
          | .value :: rest => some (.empty, c.moveTo rest)
          | .comma :: rest => some (.empty, c.moveTo rest)
          | .flowListEnd :: rest => some (.empty, c.moveTo rest)
          | _ => readNode handles false false fuel (c.moveTo ts)
        let (value, c) ← readFlowValue handles fuel c
        some (.table [(key, value)], c)
      | _ => readNode handles false false fuel c
    readFlowItems handles false (done ++ [node]) fuel c

/-- The entries of a flow table after those in `done`, up to its brace. -/
def readFlowEntries (handles : Handles) (first : Bool) (done : List (Node × Node)) :
    (fuel : Nat) → Cursor → Option (List (Node × Node) × Cursor)
  | 0, _ => none
  | fuel + 1, c =>
    match first, c.tokens with
    | _, .flowTableEnd :: ts => some (done, c.moveTo ts)
    | false, .comma :: .flowTableEnd :: ts => some (done, c.moveTo ts)
    | false, .comma :: ts => readFlowEntry handles done fuel (c.moveTo ts)
    | false, _ => none
    | true, _ => readFlowEntry handles done fuel c

/-- An entry of a flow table after those in `done`, and the entries after it. A node without the mark of a key has no
value. -/
def readFlowEntry (handles : Handles) (done : List (Node × Node)) :
    (fuel : Nat) → Cursor → Option (List (Node × Node) × Cursor)
  | 0, _ => none
  | fuel + 1, c => do
    let (entry, c) ←
      match c.tokens with
      | .key :: ts =>
        let (key, c) ←
          if endsFlowKey ts then some (.empty, c.moveTo ts)
          else readNode handles false false fuel (c.moveTo ts)
        let (value, c) ← readFlowValue handles fuel c
        some ((key, value), c)
      | _ => (readNode handles false false fuel c).map fun (node, c) => ((node, .empty), c)
    readFlowEntries handles false (done ++ [entry]) fuel c

end

/-! ## Documents -/

/-- A document: its node, and the anchored nodes in the order in which they start. -/
structure Document where
  root : Node
  anchored : List (Nat × Node)

mutual

/-- The anchored nodes in a node, in the order in which they start. -/
def Node.anchors : Node → List (Nat × Node)
  | .scalar _ => []
  | .alias _ => []
  | .list items => anchoredItems items
  | .table entries => anchoredEntries entries
  | .anchored a n => (a, n) :: n.anchors

/-- The anchored nodes in the items of a list. -/
def anchoredItems : List Node → List (Nat × Node)
  | [] => []
  | n :: items => n.anchors ++ anchoredItems items

/-- The anchored nodes in the entries of a table. -/
def anchoredEntries : List (Node × Node) → List (Nat × Node)
  | [] => []
  | (key, value) :: entries => key.anchors ++ value.anchors ++ anchoredEntries entries

end

/-- The document of a node. -/
def Document.ofNode (root : Node) : Document := ⟨root, root.anchors⟩

/-- The scalar, list or table that a node stands for. If anchors share a number it is that of the last one. -/
def Document.resolve (d : Document) : Node → Node
  | .alias a => (d.anchored.reverse.lookup a).getD .empty
  | .anchored _ n => n
  | n => n

/-- Takes the directives before a document: one version of the format, which has to be known, and one meaning for each
handle. -/
def takeDirectives (version : Bool) (handles : Handles) : List Token → Option (Handles × List Token)
  | .directive (.version major minor) :: ts =>
    if version || major ≠ 1 || (minor ≠ 1 && minor ≠ 2) then none else takeDirectives true handles ts
  | .directive (.handle name lead) :: ts =>
    if handles.contains name then none else takeDirectives version (handles.insert name lead) ts
  | ts => some (handles, ts)

/-- Nothing but marks of a document's end follows. -/
def isFinished (ts : List Token) : Bool :=
  ts.all fun
    | .documentEnd => true
    | _ => false

/-- The document of its node's tokens. -/
def Document.ofContent? (handles : Handles) (ts : List Token) : Option Document := do
  let (root, c) ← readNode (handles ++ Handles.standard) true false (4 * ts.length + 4) ⟨ts, []⟩
  if isFinished c.tokens then some (.ofNode root) else none

/-- The document after its directives, which need a start mark. Nothing has to follow the mark. -/
def Document.ofStart? (ts : List Token) : Option Document := do
  let (handles, rest) ← takeDirectives false [] ts
  match rest with
  | .documentStart :: rest =>
    if isFinished rest then some (.ofNode .empty) else ofContent? handles rest
  | _ => none

/-- The document of tokens. Without any it is empty. -/
def Document.ofTokens? : List Token → Option Document
  | [] => some (.ofNode .empty)
  | .directive d :: ts => ofStart? (.directive d :: ts)
  | .documentStart :: ts => ofStart? (.documentStart :: ts)
  | ts => ofContent? [] ts

/-- The document of a text. -/
def Document.parse? (text : String) : Option Document := do ofTokens? (← Token.ofText? text)

end SolverClient.Yaml
