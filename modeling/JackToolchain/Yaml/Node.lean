import JackToolchain.Yaml.Token

/-!
# YAML nodes

A document is a scalar, a sequence or a mapping, and so are the parts of the latter two.  The values
that settings need are read this way; anchors, tags, scalars in block style and directives are
refused.

A part that is left out is an empty scalar.  A sequence that is a part of an entry need not be
indented by more than the entry, and then no tokens tell where it begins and ends: its dashes do.
-/

namespace JackToolchain.Yaml

/-- What a document consists of. -/
inductive Node where
  /-- A scalar remembers whether it was quoted, because only an unquoted one can stand for something
  other than its text. -/
  | scalar (text : String) (quoted : Bool)
  | sequence (items : List Node)
  /-- The entries in the order they were written, repeated keys included. -/
  | mapping (entries : List (Node × Node))
deriving Inhabited

namespace Node

/-- The node that is read where none is written. -/
def empty : Node := .scalar "" false

/-- What a node is a part of. -/
inductive Role where
  /-- A document, or a sequence in block style. -/
  | item
  /-- An entry of a mapping in block style. -/
  | entry
  /-- A collection in flow style. -/
  | flow
deriving DecidableEq

/-- Whether a node in block style can be written in a role. -/
def Role.block (role : Role) : Bool := role != .flow

/-- A part that is left out before the tokens that `ends` holds of, and that `read?` reads
otherwise. -/
def orEmpty? (ends : Token → Bool) (read? : List Token → Option (Node × List Token)) :
    List Token → Option (Node × List Token)
  | [] => none
  | t :: ts => if ends t then some (empty, t :: ts) else read? (t :: ts)

/-- The value behind a key that has been read, if a colon follows the key. -/
def valueOf? (ends : Token → Bool) (read? : List Token → Option (Node × List Token)) :
    List Token → Option (Node × List Token)
  | .value :: ts => orEmpty? ends read? ts
  | ts => some (empty, ts)

/-- Whether an item in block style is over. -/
def endsItem (t : Token) : Bool := t == .item || t == .blockEnd

/-- Whether a part of an entry in block style is over. -/
def endsEntry (t : Token) : Bool := t == .key || t == .value || t == .blockEnd

/-- Whether an item that needs no more indentation than its sequence's key is over. -/
def endsLooseItem (t : Token) : Bool := t == .item || endsEntry t

/-- Whether a part of an entry in flow style is over, when `close` ends the collection. -/
def endsFlow (close : Token) (t : Token) : Bool := t == .separator || t == close

mutual

/-- The node that begins here. -/
def ofTokens? : Nat → Role → List Token → Option (Node × List Token)
  | 0, _, _ => none
  | n + 1, role, ts =>
    match ts with
    | .scalar text quoted :: ts => some (.scalar text quoted, ts)
    | .flowSequenceStart :: ts => flowItems? n [] ts
    | .flowMappingStart :: ts => flowEntries? n [] ts
    | .blockSequenceStart :: ts => if role.block then blockItems? n [] ts else none
    | .blockMappingStart :: ts => if role.block then blockEntries? n [] ts else none
    | .item :: _ => if role == .entry then looseItems? n [] ts else none
    | _ => none

/-- The items of a sequence in block style, behind those of `done`, newest first. -/
def blockItems? : Nat → List Node → List Token → Option (Node × List Token)
  | 0, _, _ => none
  | n + 1, done, ts =>
    match ts with
    | .blockEnd :: ts => some (.sequence done.reverse, ts)
    | .item :: ts =>
      match orEmpty? endsItem (ofTokens? n .item) ts with
      | some (item, ts) => blockItems? n (item :: done) ts
      | none => none
    | _ => none

/-- The items of a sequence that is indented like its key, behind those of `done`, newest first. -/
def looseItems? : Nat → List Node → List Token → Option (Node × List Token)
  | 0, _, _ => none
  | n + 1, done, ts =>
    match ts with
    | .item :: ts =>
      match orEmpty? endsLooseItem (ofTokens? n .item) ts with
      | some (item, ts) => looseItems? n (item :: done) ts
      | none => none
    | ts => some (.sequence done.reverse, ts)

/-- The entries of a mapping in block style, behind those of `done`, newest first. -/
def blockEntries? : Nat → List (Node × Node) → List Token → Option (Node × List Token)
  | 0, _, _ => none
  | n + 1, done, ts =>
    match ts with
    | .blockEnd :: ts => some (.mapping done.reverse, ts)
    | .key :: ts =>
      match orEmpty? endsEntry (ofTokens? n .entry) ts with
      | some (key, ts) =>
        match valueOf? endsEntry (ofTokens? n .entry) ts with
        | some (value, ts) => blockEntries? n ((key, value) :: done) ts
        | none => none
      | none => none
    | _ => none

/-- The items of a sequence in flow style, behind those of `done`, newest first.  An entry among
them is a mapping by itself, whose key is not left out. -/
def flowItems? : Nat → List Node → List Token → Option (Node × List Token)
  | 0, _, _ => none
  | n + 1, done, ts =>
    let item : Option (Node × List Token) :=
      match ts with
      | .flowSequenceEnd :: _ => none
      | .key :: ts =>
        match ofTokens? n .flow ts with
        | some (key, ts) =>
          (valueOf? (endsFlow .flowSequenceEnd) (ofTokens? n .flow) ts).map fun (value, ts) =>
            (.mapping [(key, value)], ts)
        | none => none
      | ts => ofTokens? n .flow ts
    match item with
    | some (item, .separator :: ts) => flowItems? n (item :: done) ts
    | some (item, .flowSequenceEnd :: ts) => some (.sequence (item :: done).reverse, ts)
    | some _ => none
    | none => if ts.head? == some .flowSequenceEnd then some (.sequence done.reverse, ts.drop 1)
      else none

/-- The entries of a mapping in flow style, behind those of `done`, newest first.  A node that is no
key is a key without a value. -/
def flowEntries? : Nat → List (Node × Node) → List Token → Option (Node × List Token)
  | 0, _, _ => none
  | n + 1, done, ts =>
    let entry : Option ((Node × Node) × List Token) :=
      match ts with
      | .flowMappingEnd :: _ => none
      | .key :: ts =>
        match orEmpty? (fun t => t == .value || endsFlow .flowMappingEnd t) (ofTokens? n .flow) ts
          with
        | some (key, ts) =>
          (valueOf? (endsFlow .flowMappingEnd) (ofTokens? n .flow) ts).map fun (value, ts) =>
            ((key, value), ts)
        | none => none
      | ts => (ofTokens? n .flow ts).map fun (key, ts) => ((key, empty), ts)
    match entry with
    | some (entry, .separator :: ts) => flowEntries? n (entry :: done) ts
    | some (entry, .flowMappingEnd :: ts) => some (.mapping (entry :: done).reverse, ts)
    | some _ => none
    | none =>
      if ts.head? == some .flowMappingEnd then some (.mapping done.reverse, ts.drop 1) else none

end

/-- The node of a document, and the tokens behind it.  Without any token it is left out, and it may
be behind the mark that begins it. -/
def document? (ts : List Token) : Option (Node × List Token) :=
  let node? := ofTokens? (2 * ts.length + 1) .item
  match ts with
  | [] => some (empty, [])
  | .documentStart :: [] => some (empty, [])
  | .documentStart :: ts => orEmpty? (fun t => t == .documentStart || t == .documentEnd) node? ts
  | ts => node? ts

end Node

/-- The one document that a text consists of. -/
def read? (text : String) : Option Node := do
  let (node, rest) ← Node.document? (← tokens? text)
  if rest.all (· == .documentEnd) then some node else none

end JackToolchain.Yaml
