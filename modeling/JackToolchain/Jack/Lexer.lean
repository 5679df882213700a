import JackToolchain.Text.Lines
import JackToolchain.Jack.Token

/-!
# Reading tokens

A `Cursor` is a place in a source: the characters still to read and the `Position` of the first of
them.  `Cursor.next` reads one *item*, a token or a lexical error, and returns the cursor behind it.
It skips *trivia* first (blanks, line comments, block comments) and then decides by one character: a
quote begins a string constant, a symbol stands for itself, anything else begins a *word*, which
runs up to the next blank, quote or symbol and is then found to be a keyword, an integer constant,
an identifier, or wrong.

Reading goes on behind an error, and reading at the end of the source gives the end-of-source token
as often as one asks.  The end is treated as a mark that is one column wide and no byte long: each
time it is read, the column grows by one.

`Cursor.items` lists what a source consists of: the items up to and including the end-of-source
token or the first error, whichever comes first.
-/

namespace JackToolchain.Jack

/-! ### Positions -/

/-- The place of a character: bytes before it, and its line and column from one. -/
structure Position where
  offset : Nat
  line : Nat
  column : Nat
deriving Repr, DecidableEq, Inhabited

namespace Position

/-- The place of the first character of a source. -/
def origin : Position := ⟨0, 1, 1⟩

/-- The place behind a character.  A line feed is the last character of its line. -/
def advance (p : Position) (c : Char) : Position :=
  if c = '\n' then ⟨p.offset + c.utf8Size, p.line + 1, 1⟩
  else ⟨p.offset + c.utf8Size, p.line, p.column + 1⟩

/-- The place behind a text. -/
def after (p : Position) (text : List Char) : Position := text.foldl advance p

/-- The place behind the end mark of the source. -/
def pastEnd (p : Position) : Position := { p with column := p.column + 1 }

/-- The stretch of the source from a place up to a byte offset. -/
def spanTo (p : Position) (stop : Nat) : Span := ⟨p.offset, stop, p.line, p.column⟩

end Position

/-! ### Errors -/

/-- What can be wrong with the spelling of a source. -/
inductive LexFault where
  /-- A string constant without a closing quote on its line. -/
  | unterminatedString
  /-- A block comment that is not closed. -/
  | unterminatedComment
  /-- An integer constant above `maxInt`. -/
  | integerOutOfRange (digits : String)
  /-- A word that begins with a digit and does not consist of digits. -/
  | malformedInteger (word : String)
  /-- A word that is no keyword, identifier or integer constant. -/
  | invalidIdentifier (word : String)
deriving Repr, DecidableEq

/-- A fault and the place where the faulty lexeme begins. -/
structure LexError where
  fault : LexFault
  line : Nat
  column : Nat
deriving Repr, DecidableEq

/-- The wording of a fault. -/
def LexFault.message : LexFault → String
  | .unterminatedString => "unterminated string constant"
  | .unterminatedComment => "unterminated comment"
  | .integerOutOfRange digits =>
    "integer constant " ++ digits ++ " out of range 0..=" ++ toString maxInt
  | .malformedInteger word => "malformed integer constant '" ++ word ++ "'"
  | .invalidIdentifier word => "invalid identifier '" ++ word ++ "'"

/-- The wording of a lexical error. -/
def LexError.message (e : LexError) : String :=
  toString e.line ++ ":" ++ toString e.column ++ ": " ++ e.fault.message

/-- What reading yields: a token or a lexical error. -/
abbrev Item : Type := Except LexError Token

/-- A place in a source. -/
structure Cursor where
  rest : List Char
  pos : Position
deriving Repr, DecidableEq, Inhabited

/-! ### Trivia -/

/-- The cursor behind a block comment, from a place inside it.  Where the comment is not closed, the
position behind the source instead. -/
def closeComment : List Char → Position → Except Position Cursor
  | [], p => .error p
  | '*' :: '/' :: cs, p => .ok ⟨cs, (p.advance '*').advance '/'⟩
  | c :: cs, p => closeComment cs (p.advance c)

theorem length_of_closeComment {cs : List Char} {p : Position} {c : Cursor}
    (h : closeComment cs p = .ok c) : c.rest.length ≤ cs.length := by
  fun_induction closeComment cs p with
  | case1 => cases h
  | case2 cs p =>
    cases h
    exact Nat.le_succ_of_le (Nat.le_succ _)
  | case3 p x cs _ ih => exact Nat.le_succ_of_le (ih h)

theorem length_dropWhile_le (p : Char → Bool) (cs : List Char) :
    (cs.dropWhile p).length ≤ cs.length :=
  (List.dropWhile_suffix p).length_le

/-- A block comment that is not closed: where it begins, and the position behind the source. -/
structure OpenComment where
  start : Position
  stop : Position
deriving Repr, DecidableEq

/-- Skips blanks and comments.  The cursor returned is at the end or at the first character of a
lexeme. -/
def skipTrivia (text : List Char) (p : Position) : Except OpenComment Cursor :=
  match text with
  | [] => .ok ⟨[], p⟩
  | '/' :: '/' :: cs =>
    let comment := cs.takeWhile (· != '\n')
    skipTrivia (cs.dropWhile (· != '\n')) (((p.advance '/').advance '/').after comment)
  | '/' :: '*' :: cs =>
    match _h : closeComment cs ((p.advance '/').advance '*') with
    | .error stop => .error ⟨p, stop⟩
    | .ok c => skipTrivia c.rest c.pos
  | c :: cs => if Text.isBlank c then skipTrivia cs (p.advance c) else .ok ⟨c :: cs, p⟩
termination_by text.length
decreasing_by
  · have := length_dropWhile_le (· != '\n') cs
    simp only [List.length_cons]
    omega
  · have := length_of_closeComment ‹_›
    simp only [List.length_cons]
    omega
  · simp

theorem length_of_skipTrivia {text : List Char} {p : Position} {c : Cursor}
    (h : skipTrivia text p = .ok c) : c.rest.length ≤ text.length := by
  fun_induction skipTrivia text p with
  | case1 =>
    cases h
    exact Nat.le_refl _
  | case2 p cs _ ih =>
    have := length_dropWhile_le (· != '\n') cs
    exact Nat.le_trans (ih h) (Nat.le_succ_of_le (Nat.le_succ_of_le this))
  | case3 => cases h
  | case4 p cs d hd ih =>
    have := length_of_closeComment hd
    exact Nat.le_trans (ih h) (Nat.le_succ_of_le (Nat.le_succ_of_le this))
  | case5 p x cs _ _ _ ih => exact Nat.le_succ_of_le (ih h)
  | case6 =>
    cases h
    exact Nat.le_refl _

/-! ### Lexemes -/

/-- The token that a non-empty text spells at a position. -/
def tokenAt (p : Position) (kind : Kind) (text : List Char) : Token :=
  ⟨⟨kind, String.ofList text⟩, p.spanTo (p.after text).offset⟩

/-- The error at a position. -/
def errorAt (p : Position) (fault : LexFault) : LexError := ⟨fault, p.line, p.column⟩

/-- Characters that a string constant may hold. -/
def isStringChar (c : Char) : Bool := c != '"' && c != '\n'

/-- Reads a string constant whose opening quote is at `p`; `cs` is what follows the quote.  A line
feed that ends the constant too early is read with it. -/
def stringConstant (cs : List Char) (p : Position) : Item × Cursor :=
  let body := cs.takeWhile isStringChar
  let stop := (p.advance '"').after body
  match cs.dropWhile isStringChar with
  | [] => (.error (errorAt p .unterminatedString), ⟨[], stop.pastEnd⟩)
  | c :: rest =>
    if c = '"' then (.ok (tokenAt p .string ('"' :: body ++ ['"'])), ⟨rest, stop.advance c⟩)
    else (.error (errorAt p .unterminatedString), ⟨rest, stop.advance c⟩)

/-- Characters that a word is made of: all but blanks, quotes and symbols. -/
def isWordChar (c : Char) : Bool := !Text.isBlank c && c != '"' && (Symbol.ofChar? c).isNone

/-- Characters that an identifier can begin with. -/
def isIdentStart (c : Char) : Bool := c == '_' || c.isAlpha

/-- Characters that an identifier can go on with. -/
def isIdentPart (c : Char) : Bool := c == '_' || c.isAlphanum

/-- What a word is. -/
def classify (word : List Char) : Except LexFault Kind :=
  match Keyword.ofText? (String.ofList word) with
  | some k => .ok (.keyword k)
  | none =>
    match word with
    | [] => .error (.invalidIdentifier "")
    | c :: cs =>
      if c.isDigit then
        if cs.all Char.isDigit then
          if Text.decimalValue word ≤ maxInt then .ok (.int (Text.decimalValue word))
          else .error (.integerOutOfRange (String.ofList word))
        else .error (.malformedInteger (String.ofList word))
      else if isIdentStart c && cs.all isIdentPart then .ok .ident
      else .error (.invalidIdentifier (String.ofList word))

/-- Reads the word that begins with `c` at `p`; `cs` is what follows `c`. -/
def word (c : Char) (cs : List Char) (p : Position) : Item × Cursor :=
  let text := c :: cs.takeWhile isWordChar
  let behind : Cursor := ⟨cs.dropWhile isWordChar, p.after text⟩
  match classify text with
  | .ok kind => (.ok (tokenAt p kind text), behind)
  | .error fault => (.error (errorAt p fault), behind)

/-- Reads the lexeme that begins with `c` at `p`; `cs` is what follows `c`. -/
def lexeme (c : Char) (cs : List Char) (p : Position) : Item × Cursor :=
  if c = '"' then stringConstant cs p
  else
    match Symbol.ofChar? c with
    | some s => (.ok (tokenAt p (.symbol s) [c]), ⟨cs, p.advance c⟩)
    | none => word c cs p

/-! ### Cursors -/

namespace Cursor

/-- The beginning of a source. -/
def ofSource (source : String) : Cursor := ⟨source.toList, .origin⟩

/-- The next item, and the cursor behind it. -/
def next (c : Cursor) : Item × Cursor :=
  match skipTrivia c.rest c.pos with
  | .error comment =>
    (.error (errorAt comment.start .unterminatedComment), ⟨[], comment.stop.pastEnd⟩)
  | .ok ⟨[], p⟩ => (.ok ⟨⟨.eos, ""⟩, p.spanTo p.offset⟩, ⟨[], p.pastEnd⟩)
  | .ok ⟨x :: cs, p⟩ => lexeme x cs p

end Cursor

theorem length_of_stringConstant (cs : List Char) (p : Position) :
    (stringConstant cs p).2.rest.length ≤ cs.length := by
  have h := length_dropWhile_le isStringChar cs
  unfold stringConstant
  split
  · exact Nat.zero_le _
  · next hd =>
    rw [hd] at h
    split <;> exact Nat.le_of_succ_le h

theorem length_of_word (c : Char) (cs : List Char) (p : Position) :
    (word c cs p).2.rest.length ≤ cs.length := by
  have h := length_dropWhile_le isWordChar cs
  unfold word
  dsimp only
  split <;> exact h

theorem length_of_lexeme (c : Char) (cs : List Char) (p : Position) :
    (lexeme c cs p).2.rest.length ≤ cs.length := by
  unfold lexeme
  split
  · exact length_of_stringConstant cs p
  · split
    · exact Nat.le_refl _
    · exact length_of_word c cs p

namespace Cursor

/-- **Reading makes progress.**  A token other than the end of the source leaves fewer characters to
read. -/
theorem length_of_next {c d : Cursor} {t : Token} (h : c.next = (.ok t, d)) (ht : t.kind ≠ .eos) :
    d.rest.length < c.rest.length := by
  unfold next at h
  split at h
  · cases h
  · cases h
    exact absurd rfl ht
  · next x cs p hs =>
    have hskip := length_of_skipTrivia hs
    have hlex := length_of_lexeme x cs p
    rw [h] at hlex
    exact Nat.lt_of_le_of_lt hlex hskip

/-- The items that are left, after those of `done`, newest first. -/
def itemsFrom (done : List Item) (c : Cursor) : List Item :=
  match _h : c.next with
  | (.error e, _) => (.error e :: done).reverse
  | (.ok t, d) =>
    if _ht : t.kind = .eos then (.ok t :: done).reverse else itemsFrom (.ok t :: done) d
termination_by c.rest.length
decreasing_by exact length_of_next ‹_› ‹_›

/-- The items from a place on, up to the end of the source or the first error. -/
def items (c : Cursor) : List Item := itemsFrom [] c

variable {c d : Cursor}

theorem itemsFrom_append (done base : List Item) (c : Cursor) :
    itemsFrom (done ++ base) c = base.reverse ++ itemsFrom done c := by
  fun_induction itemsFrom done c with
  | case1 done c e d h =>
    rw [itemsFrom]
    split
    · next h' =>
      cases h.symm.trans h'
      rw [← List.cons_append, List.reverse_append]
    · next h' => cases h.symm.trans h'
  | case2 done c t d h ht =>
    rw [itemsFrom]
    split
    · next h' => cases h.symm.trans h'
    · next h' =>
      cases h.symm.trans h'
      rw [dif_pos ht, ← List.cons_append, List.reverse_append]
  | case3 done c t d h ht ih =>
    rw [itemsFrom]
    split
    · next h' => cases h.symm.trans h'
    · next h' =>
      cases h.symm.trans h'
      rw [dif_neg ht]
      exact ih

/-- An error is the last item. -/
theorem items_of_next_error {e : LexError} (h : c.next = (.error e, d)) : c.items = [.error e] := by
  unfold items
  rw [itemsFrom]
  split
  · next h' =>
    cases h.symm.trans h'
    rfl
  · next h' => cases h.symm.trans h'

/-- The items from a token on. -/
theorem items_of_next_ok {t : Token} (h : c.next = (.ok t, d)) :
    c.items = .ok t :: (if t.kind = .eos then [] else d.items) := by
  unfold items
  rw [itemsFrom]
  split
  · next h' => cases h.symm.trans h'
  · next h' =>
    cases h.symm.trans h'
    split
    · rfl
    · exact itemsFrom_append [] [.ok t] d

end Cursor

/-- The tokens of a source, the end-of-source token last, unless there is a lexical error. -/
def tokenize (source : String) : Except LexError (List Token) :=
  (Cursor.ofSource source).items.mapM id

end JackToolchain.Jack
