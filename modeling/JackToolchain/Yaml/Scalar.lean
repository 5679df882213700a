import JackToolchain.Yaml.Text

/-!
# YAML scalars

A scalar is a run of words, written as it is or between quotes.  The blanks between two words belong
to it as they stand.  Where lines end between two words, the blanks around the ends are dropped and
the ends are *folded*: a single one stands for a space, and of more the first is dropped.  An
unquoted scalar goes on over lines as long as they are indented, and a comment ends it.

The readers keep the text and the gap behind its last word apart, because only another word decides
that the gap belongs to the scalar.
-/

namespace JackToolchain.Yaml

/-- A scalar that has been read. -/
structure Scalar where
  text : String
  quoted : Bool
  /-- Whether its last line ends without anything else on it. -/
  endsLine : Bool
  /-- What follows it, which is no blank and no line break if it is unquoted. -/
  stop : Cursor

/-! ### Gaps between words -/

/-- What has been read of a gap between two words, newest first. -/
inductive Gap where
  /-- Blanks, none at the beginning. -/
  | blanks (read : List Char)
  /-- Line breaks, the first of which is missing if a backslash has removed it. -/
  | breaks (first : Option Char) (others : List Char)

namespace Gap

/-- The gap that nothing has been read of. -/
def start : Gap := .blanks []

/-- Whether nothing has been read. -/
def isEmpty : Gap → Bool
  | blanks [] => true
  | _ => false

/-- Whether a line has ended. -/
def endsLine : Gap → Bool
  | blanks _ => false
  | breaks _ _ => true

/-- A gap with one more blank or line break. -/
def push (c : Char) : Gap → Gap
  | blanks read => if isBreak c then breaks (some c) [] else blanks (c :: read)
  | breaks first others => breaks first (if isBreak c then c :: others else others)

/-- What a gap stands for if another word follows it, newest first. -/
def text : Gap → List Char
  | blanks read => read
  | breaks (some '\n') [] => [' ']
  | breaks (some '\n') others => others
  | breaks first others => others ++ first.toList

end Gap

/-! ### Unquoted scalars -/

/-- Whether an unquoted scalar ends before a word that begins here, behind a gap.  In block style a
line that is not indented by `least` belongs to it no more. -/
def endsBeforeWord (flow : Bool) (least : Nat) (p : Place) (cs : List Char) : Bool :=
  cs.head? == some '#' || (!flow && p.column < least) || (p.column == 0 && isMarker cs)

/-- Whether an unquoted scalar ends before a character, be it in a word or before one. -/
def endsBefore (flow : Bool) (c : Char) (rest : List Char) : Bool :=
  (c == ':' && atBlank rest) || (flow && isFlowMark c)

/-- Whether what follows a colon in a word of flow style could be meant as something else than that
word. -/
def isAmbiguous : List Char → Bool
  | c :: _ => isFlowMark c || c == '?'
  | [] => false

/-- An unquoted scalar, behind `text` and `gap`, both newest first.  A tab may not stand where a
line is indented. -/
def plainFrom? (flow : Bool) (least : Nat) (text : List Char) (gap : Gap) (p : Place) :
    List Char → Option Scalar
  | [] => some ⟨String.ofList text.reverse, false, gap.endsLine, ⟨p, []⟩⟩
  | c :: rest =>
    if isBlank c || isBreak c then
      if c == '\t' && gap.endsLine && p.column < least then none
      else plainFrom? flow least text (gap.push c) (p.after c) rest
    else if (!gap.isEmpty && endsBeforeWord flow least p (c :: rest)) then
      some ⟨String.ofList text.reverse, false, gap.endsLine, ⟨p, c :: rest⟩⟩
    else if flow && c == ':' && isAmbiguous rest then none
    else if endsBefore flow c rest then
      some ⟨String.ofList text.reverse, false, gap.endsLine, ⟨p, c :: rest⟩⟩
    else plainFrom? flow least (c :: (gap.text ++ text)) .start (p.after c) rest

/-- The unquoted scalar that begins at a cursor. -/
def plain? (flow : Bool) (least : Nat) (c : Cursor) : Option Scalar :=
  plainFrom? flow least [] .start c.place c.rest

/-! ### Quoted scalars -/

/-- The value of a hexadecimal digit. -/
def hexDigit? (c : Char) : Option Nat :=
  if c.isDigit then some (c.toNat - '0'.toNat)
  else if 'a' ≤ c && c ≤ 'f' then some (c.toNat - 'a'.toNat + 10)
  else if 'A' ≤ c && c ≤ 'F' then some (c.toNat - 'A'.toNat + 10)
  else none

/-- The character whose code the next `length` hexadecimal digits spell. -/
def hexChar? (length : Nat) (cs : List Char) : Option Char := do
  let digits := cs.take length
  if digits.length < length then none
  let code ← digits.foldlM (fun code c => do return code * 16 + (← hexDigit? c)) 0
  if code.isValidChar then some (Char.ofNat code) else none

/-- What the characters behind a backslash stand for, and how many of them do. -/
def escape? : List Char → Option (Char × Nat)
  | '0' :: _ => some ('\x00', 1)
  | 'a' :: _ => some ('\x07', 1)
  | 'b' :: _ => some ('\x08', 1)
  | 't' :: _ | '\t' :: _ => some ('\t', 1)
  | 'n' :: _ => some ('\n', 1)
  | 'v' :: _ => some ('\x0b', 1)
  | 'f' :: _ => some ('\x0c', 1)
  | 'r' :: _ => some ('\r', 1)
  | 'e' :: _ => some ('\x1b', 1)
  | ' ' :: _ => some (' ', 1)
  | '"' :: _ => some ('"', 1)
  | '/' :: _ => some ('/', 1)
  | '\\' :: _ => some ('\\', 1)
  | 'N' :: _ => some ('\u0085', 1)
  | '_' :: _ => some ('\u00a0', 1)
  | 'L' :: _ => some ('\u2028', 1)
  | 'P' :: _ => some ('\u2029', 1)
  | 'x' :: rest => (hexChar? 2 rest).map (·, 3)
  | 'u' :: rest => (hexChar? 4 rest).map (·, 5)
  | 'U' :: rest => (hexChar? 8 rest).map (·, 9)
  | _ => none

/-- A scalar behind its opening quote, behind `text` and `gap`, both newest first.  The next `used`
characters have been read already.  A quote between single quotes is written twice, one between
double quotes behind a backslash, where other characters have meanings of their own and a line break
has none. -/
def quotedFrom? (quote : Char) (text : List Char) (gap : Gap) (used : Nat) (p : Place) :
    List Char → Option Scalar
  | [] => none
  | c :: rest =>
    match used with
    | used + 1 => quotedFrom? quote text gap used (p.after c) rest
    | 0 =>
      if isBlank c || isBreak c then quotedFrom? quote text (gap.push c) 0 (p.after c) rest
      else if p.column == 0 && isMarker (c :: rest) then none
      else
        let text := gap.text ++ text
        if c == quote then
          if quote == '\'' && rest.head? == some quote then
            quotedFrom? quote (quote :: text) .start 1 (p.after c) rest
          else some ⟨String.ofList text.reverse, true, false, ⟨p.after c, rest⟩⟩
        else if quote == '"' && c == '\\' then
          if rest.head?.any isBreak then quotedFrom? quote text (.breaks none []) 1 (p.after c) rest
          else
            match escape? rest with
            | some (meant, n) => quotedFrom? quote (meant :: text) .start n (p.after c) rest
            | none => none
        else quotedFrom? quote (c :: text) .start 0 (p.after c) rest

/-- The quoted scalar that begins at a cursor. -/
def quoted? (c : Cursor) : Option Scalar :=
  match c.rest with
  | [] => none
  | quote :: rest => quotedFrom? quote [] .start 0 (c.place.after quote) rest

end JackToolchain.Yaml
