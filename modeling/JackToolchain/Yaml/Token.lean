import JackToolchain.Yaml.Scalar

/-!
# YAML tokens

The tokens of a document are its scalars and the marks between them.  A collection in block style
has no marks of its own; it begins where something is indented by more than what surrounds it, and
ends where something is indented by less, and tokens say so.

A key is known to be one only when its colon has been read.  So the reader remembers where the last
node that could be a key begins, its *candidate*, and puts the token that precedes a key there
later.  A candidate is given up when something else follows it, when its line ends or when its colon
is too far away.
-/

namespace JackToolchain.Yaml

/-- What a document is written with. -/
inductive Token where
  | documentStart
  | documentEnd
  | blockSequenceStart
  | blockMappingStart
  /-- The end of a collection in block style. -/
  | blockEnd
  | flowSequenceStart
  | flowSequenceEnd
  | flowMappingStart
  | flowMappingEnd
  /-- A comma. -/
  | separator
  /-- The dash before an item. -/
  | item
  /-- What precedes a key, be it written or not. -/
  | key
  /-- The colon before a value. -/
  | value
  | scalar (text : String) (quoted : Bool)
deriving Repr, DecidableEq

/-! ### Blanks and comments between tokens -/

/-- Drops blanks, comments and line breaks before a token, where `comment` tells whether a comment
is being read.  Whether a key may begin at the token is told as well, because outside of flow style
one may at the beginning of a line.  There a tab is no indentation, and stays.  A byte order mark
may begin a line. -/
def skipGap (flow keyAllowed comment : Bool) (p : Place) : List Char → Bool × Cursor
  | [] => (keyAllowed, ⟨p, []⟩)
  | c :: rest =>
    if isBreak c then skipGap flow (keyAllowed || !flow) false (p.after c) rest
    else if comment then skipGap flow keyAllowed true (p.after c) rest
    else if c == ' ' || (c == '\t' && (flow || !keyAllowed)) || (c == '\uFEFF' && p.column == 0)
      then
      skipGap flow keyAllowed false (p.after c) rest
    else if c == '#' then skipGap flow keyAllowed true (p.after c) rest
    else (keyAllowed, ⟨p, c :: rest⟩)

/-! ### What has been read -/

/-- A node that is a key if a colon follows. -/
structure Candidate where
  place : Place
  /-- The tokens before it. -/
  count : Nat
  /-- Whether it stands where only a key can. -/
  required : Bool

/-- How many bytes may separate the beginning of a key from its colon. -/
def keyLimit : Nat := 1024

/-- Whether a colon at a place follows in time. -/
def Candidate.reaches (k : Candidate) (p : Place) : Bool :=
  k.place.line == p.line && p.bytes ≤ k.place.bytes + keyLimit

/-- What is known of a document that has been read up to some token. -/
structure Layout where
  /-- The tokens, newest first. -/
  tokens : List Token := []
  /-- Their number. -/
  count : Nat := 0
  /-- The columns of the open collections in block style, innermost first. -/
  columns : List Nat := []
  /-- Whether a key may begin at the next token. -/
  keyAllowed : Bool := true
  /-- The candidate in the innermost collection. -/
  candidate : Option Candidate := none
  /-- Those around the open collections in flow style, innermost first. -/
  outer : List (Option Candidate) := []

namespace Layout

/-- Whether a collection in flow style is open. -/
def inFlow (s : Layout) : Bool := !s.outer.isEmpty

/-- Adds a token. -/
def push (t : Token) (s : Layout) : Layout :=
  { s with tokens := t :: s.tokens, count := s.count + 1 }

/-- How far something has to be indented to belong to what is inside the innermost collection. -/
def least (s : Layout) : Nat :=
  match s.columns with
  | [] => 0
  | column :: _ => column + 1

/-- Opens a collection in block style at a column, unless one is open there. -/
def indent (t : Token) (column : Nat) (s : Layout) : Layout :=
  if !s.inFlow && s.least ≤ column then { s.push t with columns := column :: s.columns } else s

/-- Closes the collections in block style that `closes` picks by their columns, innermost first. -/
def dedent (closes : Nat → Bool) (s : Layout) : Layout :=
  if s.inFlow then s
  else
    let closed := (s.columns.takeWhile closes).map fun _ => Token.blockEnd
    { s with
      tokens := closed ++ s.tokens
      count := s.count + closed.length
      columns := s.columns.dropWhile closes }

/-- Gives up the candidate, unless it has to be a key. -/
def dropCandidate? (s : Layout) : Option Layout :=
  match s.candidate with
  | none => some s
  | some k => if k.required then none else some { s with candidate := none }

/-- Takes the node that begins at a place as the candidate, if a key may begin there. -/
def noteCandidate? (p : Place) (s : Layout) : Option Layout :=
  if s.keyAllowed then
    s.dropCandidate?.map fun s =>
      { s with candidate := some ⟨p, s.count, !s.inFlow && s.columns.head? == some p.column⟩ }
  else some s

/-- Turns a candidate into a key, which opens a mapping if it is the first one at its column. -/
def acceptCandidate (k : Candidate) (s : Layout) : Layout :=
  let behind := s.tokens.take (s.count - k.count)
  let before :=
    { s with tokens := s.tokens.drop (s.count - k.count), count := k.count, candidate := none }
  let s := (before.indent .blockMappingStart k.place.column).push .key
  { s with tokens := behind ++ s.tokens, count := s.count + behind.length, keyAllowed := false }

/-! ### Marks -/

/-- A dash or a question mark before a part of a collection in block style, which `start` opens. -/
def partMark? (start mark : Token) (p : Place) (s : Layout) : Option Layout :=
  if s.inFlow || s.keyAllowed then ((s.indent start p.column).push mark).dropCandidate? else none

/-- A dash. -/
def itemMark? (p : Place) (s : Layout) : Option Layout :=
  (s.partMark? .blockSequenceStart .item p).map ({ · with keyAllowed := true })

/-- A question mark. -/
def keyMark? (p : Place) (s : Layout) : Option Layout :=
  (s.partMark? .blockMappingStart .key p).map ({ · with keyAllowed := !s.inFlow })

/-- A colon behind a key with a mark of its own. -/
def markedValue? (p : Place) (s : Layout) : Option Layout :=
  if s.inFlow || s.keyAllowed then
    some { (s.indent .blockMappingStart p.column).push .value with keyAllowed := !s.inFlow }
  else none

/-- A colon, behind the candidate or behind a key with a mark of its own. -/
def valueMark? (p : Place) (s : Layout) : Option Layout :=
  match s.candidate with
  | none => s.markedValue? p
  | some k =>
    if k.reaches p then some ((s.acceptCandidate k).push .value)
    else s.dropCandidate?.bind (markedValue? p)

/-- The beginning of a collection in flow style. -/
def flowStart? (t : Token) (p : Place) (s : Layout) : Option Layout :=
  (s.noteCandidate? p).map fun s =>
    { s.push t with outer := s.candidate :: s.outer, candidate := none, keyAllowed := true }

/-- The end of a collection in flow style. -/
def flowEnd? (t : Token) (s : Layout) : Option Layout :=
  s.dropCandidate?.map fun s =>
    { s.push t
      with outer := s.outer.drop 1, candidate := s.outer.head?.getD none, keyAllowed := false }

/-- A comma. -/
def separator? (s : Layout) : Option Layout :=
  s.dropCandidate?.map fun s => { s.push .separator with keyAllowed := true }

/-- The beginning or the end of a document. -/
def documentMark? (t : Token) (s : Layout) : Option Layout :=
  ((s.dedent fun _ => true).dropCandidate?).map fun s => { s.push t with keyAllowed := false }

/-- A scalar, as `read?` reads it. -/
def scalar? (read? : Cursor → Option Scalar) (c : Cursor) (s : Layout) :
    Option (Layout × Cursor) := do
  let s ← s.noteCandidate? c.place
  let scalar ← read? c
  return ({ s.push (.scalar scalar.text scalar.quoted) with keyAllowed := scalar.endsLine },
    scalar.stop)

/-! ### Documents -/

/-- Whether an unquoted scalar can begin with a character, when the characters of `rest` follow it.
What begins anchors, aliases, tags, scalars in block style and directives begins none. -/
def startsPlain (flow : Bool) (c : Char) (rest : List Char) : Bool :=
  if c == '-' then !atBlank rest
  else if c == '?' || c == ':' then !flow && !atBlank rest
  else !(isBlank c || isBreak c || isFlowMark c || "#&*!|>'\"%@\x60".toList.contains c)

/-- The token that begins at a cursor. -/
def token? (c : Cursor) (s : Layout) : Option (Layout × Cursor) :=
  match c.rest with
  | [] => none
  | x :: rest =>
    let p := c.place
    let mark (s? : Option Layout) : Option (Layout × Cursor) := s?.map (·, c.next)
    if p.column == 0 && isMarker c.rest then
      (s.documentMark? (if x == '-' then .documentStart else .documentEnd)).map (·,
        c.next.next.next)
    else if x == '[' then mark (s.flowStart? .flowSequenceStart p)
    else if x == '{' then mark (s.flowStart? .flowMappingStart p)
    else if x == ']' then mark (s.flowEnd? .flowSequenceEnd)
    else if x == '}' then mark (s.flowEnd? .flowMappingEnd)
    else if x == ',' then mark s.separator?
    else if x == '-' && atBlank rest then mark (s.itemMark? p)
    else if x == '?' && (s.inFlow || atBlank rest) then mark (s.keyMark? p)
    else if x == ':' && (s.inFlow || atBlank rest) then mark (s.valueMark? p)
    else if x == '\'' || x == '"' then s.scalar? quoted? c
    else if startsPlain s.inFlow x rest then s.scalar? (plain? s.inFlow s.least) c
    else none

/-- All tokens, in order, when the document ends. -/
def finish? (s : Layout) : Option (List Token) :=
  (s.dedent fun _ => true).dropCandidate?.map (·.tokens.reverse)

/-- The tokens of a document, where what has been read is known.  The fuel bounds their number. -/
def tokensFrom? : Nat → Layout → Cursor → Option (List Token)
  | 0, _, _ => none
  | n + 1, s, c =>
    let (keyAllowed, c) := skipGap s.inFlow s.keyAllowed false c.place c.rest
    let s := { s with keyAllowed }
    if c.rest.isEmpty then s.finish?
    else
      match (s.dedent (c.place.column < ·)).token? c with
      | some (s, c) => tokensFrom? n s c
      | none => none

end Layout

/-- The tokens of a text.  Each token that is written takes a character at least. -/
def tokens? (text : String) : Option (List Token) :=
  let cs := text.toList
  if cs.all isAllowed then
    let cs := unifyBreaks cs
    Layout.tokensFrom? (cs.length + 1) {} ⟨{}, cs⟩
  else none

end JackToolchain.Yaml
