import JackToolchain.Hack.Lexer

/-!
# Scanning with offsets of 32 bits

The lexer takes a run of characters as a whole, and counts bytes without a limit.  A *scanner* has
one character in view and can look at the one behind it.  It moves on character by character, in
loops that end only if their conditions fail.  Its offsets have 32 bits: what does not fit into them
is cut off, of the offsets of the characters and of the size of the source alike.

A NUL character stands for the end of the source, so the scanner compares its offset with the size
to tell the two apart.  With each token it makes two checks: that the token does not end in front of
its beginning, and that the scanner, moved on, stands where the token ends.  If a check fails or a
loop never ends, there is no result.
-/

namespace JackToolchain.Hack

/-- A stretch of a source, in bytes that are counted with 32 bits. -/
structure Extent where
  index : UInt32
  size : UInt32
deriving Repr, DecidableEq

namespace Extent

/-- The offset behind a stretch. -/
def stop (x : Extent) : UInt32 := x.index + x.size

/-- The shortest stretch that covers two. -/
def merge (x y : Extent) : Extent :=
  let index := min x.index y.index
  ⟨index, max x.stop y.stop - index⟩

/-- The same stretch, counted without a limit. -/
def span (x : Extent) : Span := ⟨x.index.toNat, x.size.toNat⟩

end Extent

/-- What a scanner tells of a token. -/
structure Mark where
  kind : TokenKind
  extent : Extent
deriving Repr, DecidableEq

/-- The characters of a text with the offsets at which they begin. -/
def indexed (n : Nat) : List Char → List (Nat × Char)
  | [] => []
  | c :: cs => (n, c) :: indexed (n + c.utf8Size) cs

/-- The characters that are left of a source, of which the first is in view, and the size of the
source. -/
@[ext]
structure Scanner where
  left : List (Nat × Char)
  size : UInt32

namespace Scanner

/-- The beginning of a source. -/
def ofSource (source : String) : Scanner :=
  ⟨indexed 0 source.toList, UInt32.ofNat source.utf8ByteSize⟩

/-- The character in view.  Behind the last one a NUL character is in view. -/
def current (s : Scanner) : Char :=
  match s.left with
  | [] => '\x00'
  | (_, c) :: _ => c

/-- Where the character in view begins. -/
def offset (s : Scanner) : UInt32 :=
  match s.left with
  | [] => s.size
  | (n, _) :: _ => UInt32.ofNat n

/-- Moves on to the next character. -/
def advance (s : Scanner) : Scanner := { s with left := s.left.tail }

/-- The character behind the one in view. -/
def peek (s : Scanner) : Char := s.advance.current

/-- Where the character behind the one in view begins. -/
def peekOffset (s : Scanner) : UInt32 := s.advance.offset

/-- Whether the scanner is behind all bytes of the source, as far as its offset tells. -/
def atEnd (s : Scanner) : Bool := s.size ≤ s.offset

/-- Moves on while a condition holds.  At the end of the source there is no moving on, so a loop
whose condition holds there never ends. -/
def advanceWhile (p : Scanner → Bool) (s : Scanner) : Option Scanner :=
  if p s then
    if s.left.isEmpty then none else advanceWhile p s.advance
  else some s
termination_by s.left.length
decreasing_by
  have hleft : s.left ≠ [] := fun h => absurd (List.isEmpty_iff.mpr h) ‹_›
  have hpos := List.length_pos_iff.mpr hleft
  rw [advance, List.length_tail]
  omega

/-- The mark of the token from an offset up to the character in view, and the scanner behind it, if
they pass the checks. -/
def mark? (start : UInt32) (kind : TokenKind) (s : Scanner) : Option (Mark × Scanner) :=
  if start ≤ s.peekOffset then
    let extent : Extent := ⟨start, s.peekOffset - start⟩
    if s.advance.offset = extent.stop then some (⟨kind, extent⟩, s.advance) else none
  else none

/-- The token that begins with the character in view. -/
def tokenHere? (s : Scanner) : Option (Mark × Scanner) :=
  if s.current = '\r' ∧ s.peek = '\n' then s.advance.mark? s.offset .newline
  else
    match TokenKind.ofChar? s.current with
    | some kind => s.mark? s.offset kind
    | none =>
      if isSymbolStart s.current then
        (s.advanceWhile fun s => isSymbolPart s.peek).bind (mark? s.offset .symbol)
      else if s.current.isDigit then
        (s.advanceWhile fun s => s.peek.isDigit).bind (mark? s.offset .number)
      else s.mark? s.offset .unknown

/-- Skips a comment, if there is one, up to the end of its line or of the source. -/
def skipComment? (s : Scanner) : Option Scanner :=
  if s.current = '/' ∧ s.peek = '/' then
    s.advanceWhile fun s => !isNewline s.current && !s.atEnd
  else some s

/-- The next token. -/
def next? (s : Scanner) : Option (Mark × Scanner) := do
  let s ← s.advanceWhile fun s => isBlank s.current
  let s ← s.skipComment?
  s.tokenHere?

/-! ### Progress -/

theorem length_advanceWhile {p : Scanner → Bool} {s s' : Scanner}
    (h : s.advanceWhile p = some s') : s'.left.length ≤ s.left.length := by
  fun_induction advanceWhile p s with
  | case1 s hp hend => cases h
  | case2 s hp hend ih =>
    have htail : s.advance.left.length = s.left.length - 1 := List.length_tail
    have hle := ih h
    omega
  | case3 s hp =>
    cases h
    exact Nat.le_refl _

theorem of_mark? {start : UInt32} {kind : TokenKind} {s s' : Scanner} {m : Mark}
    (h : s.mark? start kind = some (m, s')) : m.kind = kind ∧ s' = s.advance := by
  unfold mark? at h
  split at h
  · dsimp only at h
    split at h
    · cases h
      exact ⟨rfl, rfl⟩
    · cases h
  · cases h

/-- Behind a token a scanner has moved on from where it has the last character in view, which is not
in front of where it began. -/
theorem exists_of_tokenHere? {s s' : Scanner} {m : Mark} (h : s.tokenHere? = some (m, s')) :
    ∃ last : Scanner, last.left.length ≤ s.left.length ∧ s' = last.advance := by
  have hrun {p : Scanner → Bool} {kind : TokenKind}
      (h : (s.advanceWhile p).bind (mark? s.offset kind) = some (m, s')) :
      ∃ last : Scanner, last.left.length ≤ s.left.length ∧ s' = last.advance := by
    obtain ⟨last, hlast, hmark⟩ := Option.bind_eq_some_iff.mp h
    exact ⟨last, length_advanceWhile hlast, (of_mark? hmark).2⟩
  unfold tokenHere? at h
  split at h
  · refine ⟨s.advance, ?_, (of_mark? h).2⟩
    rw [advance, List.length_tail]
    omega
  · split at h
    · exact ⟨s, Nat.le_refl _, (of_mark? h).2⟩
    · split at h
      · exact hrun h
      · split at h
        · exact hrun h
        · exact ⟨s, Nat.le_refl _, (of_mark? h).2⟩

theorem kind_of_tokenHere? {s s' : Scanner} {m : Mark} (h : s.tokenHere? = some (m, s'))
    (hleft : s.left = []) : m.kind = .endOfFile := by
  have hcurrent : s.current = '\x00' := by rw [current, hleft]
  have hreturn : ¬('\x00' = '\r' ∧ s.peek = '\n') := fun h => absurd h.1 (by decide)
  unfold tokenHere? at h
  rw [hcurrent, if_neg hreturn] at h
  exact (of_mark? h).1

/-- **Reading makes progress.**  A scanner never goes back, and behind a token there are fewer
characters to read, unless the token is an end of file. -/
theorem length_next? {s s' : Scanner} {m : Mark} (h : s.next? = some (m, s')) :
    s'.left.length ≤ s.left.length ∧
      (m.kind ≠ .endOfFile → s'.left.length < s.left.length) := by
  obtain ⟨t, hblanks, h⟩ := Option.bind_eq_some_iff.mp h
  obtain ⟨u, hcomment, htoken⟩ := Option.bind_eq_some_iff.mp h
  have ht := length_advanceWhile hblanks
  have hu : u.left.length ≤ t.left.length := by
    unfold skipComment? at hcomment
    split at hcomment
    · exact length_advanceWhile hcomment
    · cases hcomment
      exact Nat.le_refl _
  obtain ⟨last, hlast, rfl⟩ := exists_of_tokenHere? htoken
  have htail : last.advance.left.length = last.left.length - 1 := List.length_tail
  refine ⟨by omega, fun hkind => ?_⟩
  have hleft : u.left ≠ [] := fun hleft => hkind (kind_of_tokenHere? htoken hleft)
  have hpos := List.length_pos_iff.mpr hleft
  omega

/-! ### Runs -/

/-- A scanner yields some tokens and ends: each token comes with the scanner behind it, and the last
one is an end of file at the end of the source.  A NUL character elsewhere does not end it. -/
inductive Yields : Scanner → List (Mark × Scanner) → Prop where
  | last {s s' : Scanner} {m : Mark} : s.next? = some (m, s') → m.kind = .endOfFile →
      s'.atEnd = true → Yields s [(m, s')]
  | more {s s' : Scanner} {m : Mark} {run : List (Mark × Scanner)} : s.next? = some (m, s') →
      ¬(m.kind = .endOfFile ∧ s'.atEnd = true) → Yields s' run → Yields s ((m, s') :: run)

end Scanner

end JackToolchain.Hack
