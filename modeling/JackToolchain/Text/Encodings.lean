import JackToolchain.Word

/-!
# Texts as bytes and as words

Files hold the bytes of texts in UTF-8; sources are texts.  Decoding reads one *sequence* of bytes
after the other.  It stops at the first place where no sequence can be read, and says why: either
the bytes there begin no sequence (then the longest part that a sequence could begin with is what is
invalid), or the bytes end in the middle of one.

Names of files are bytes as well, but they need not be text.  Lossy decoding makes a text of any
bytes.

The string constants of Jack are made of words, one for each unit of their UTF-16 form: a character
of the basic plane is one unit, any other a pair of surrogates.
-/

namespace JackToolchain.Text

/-! ### UTF-8 -/

namespace Utf8

/-- The bytes that a text is written with. -/
def encode (text : String) : List UInt8 := text.toList.flatMap String.utf8EncodeChar

/-- Why no sequence can be read at some place. -/
inductive Flaw where
  /-- The next `length` bytes begin no sequence that the byte after them continues. -/
  | invalid (length : Nat)
  /-- The bytes end before the sequence does. -/
  | incomplete
deriving Repr, DecidableEq

/-- Where decoding stopped, and why. -/
structure Error where
  /-- The number of bytes before the place. -/
  index : Nat
  flaw : Flaw
deriving Repr, DecidableEq

/-- The wording of a decoding error. -/
def Error.message (e : Error) : String :=
  match e.flaw with
  | .invalid length =>
    "invalid utf-8 sequence of " ++ toString length ++ " bytes from index " ++ toString e.index
  | .incomplete => "incomplete utf-8 byte sequence from index " ++ toString e.index

/-- What a first byte announces. -/
structure Lead where
  /-- How many bytes follow it. -/
  following : Nat
  /-- The least value of the byte after it. -/
  low : UInt8
  /-- The greatest value of the byte after it. -/
  high : UInt8
  /-- Its contribution to the code point. -/
  bits : Nat
deriving Repr, DecidableEq

/-- The sequences that a byte can begin.  The bounds on the second byte rule out overlong forms,
surrogates and numbers above the last code point. -/
def lead? (b : UInt8) : Option Lead :=
  let n := b.toNat
  if n < 0x80 then some ⟨0, 0x80, 0xBF, n⟩
  else if n < 0xC2 then none
  else if n < 0xE0 then some ⟨1, 0x80, 0xBF, n - 0xC0⟩
  else if n = 0xE0 then some ⟨2, 0xA0, 0xBF, 0⟩
  else if n = 0xED then some ⟨2, 0x80, 0x9F, 13⟩
  else if n < 0xF0 then some ⟨2, 0x80, 0xBF, n - 0xE0⟩
  else if n = 0xF0 then some ⟨3, 0x90, 0xBF, 0⟩
  else if n < 0xF4 then some ⟨3, 0x80, 0xBF, n - 0xF0⟩
  else if n = 0xF4 then some ⟨3, 0x80, 0x8F, 4⟩
  else none

/-- Reads the bytes that follow a first byte: `missing` of them are to come, the next one between
`low` and `high`, after `seen` bytes that make up `code` so far. -/
def following (seen code : Nat) : Nat → UInt8 → UInt8 → List UInt8 → Except Flaw (Char × List UInt8)
  | 0, _, _, bytes => .ok (Char.ofNat code, bytes)
  | _ + 1, _, _, [] => .error .incomplete
  | missing + 1, low, high, b :: bytes =>
    if low ≤ b && b ≤ high then
      following (seen + 1) (code * 64 + (b.toNat - 0x80)) missing 0x80 0xBF bytes
    else
      .error (.invalid seen)

/-- Reads the sequence that begins with the byte `b`. -/
def sequence (b : UInt8) (bytes : List UInt8) : Except Flaw (Char × List UInt8) :=
  match lead? b with
  | none => .error (.invalid 1)
  | some l => following 1 l.bits l.following l.low l.high bytes

theorem length_of_following {seen code missing : Nat} {low high : UInt8}
    {bytes rest : List UInt8} {c : Char}
    (h : following seen code missing low high bytes = .ok (c, rest)) :
    rest.length ≤ bytes.length := by
  induction missing generalizing seen code low high bytes with
  | zero =>
    simp only [following, Except.ok.injEq, Prod.mk.injEq] at h
    exact h.2 ▸ Nat.le_refl _
  | succ missing ih =>
    cases bytes with
    | nil => simp [following] at h
    | cons b bytes =>
      simp only [following] at h
      split at h
      · exact Nat.le_trans (ih h) (Nat.le_succ _)
      · cases h

/-- The bytes left after a sequence are no more than followed its first byte. -/
theorem length_of_sequence {b : UInt8} {bytes rest : List UInt8} {c : Char}
    (h : sequence b bytes = .ok (c, rest)) : rest.length ≤ bytes.length := by
  unfold sequence at h
  split at h
  · cases h
  · exact length_of_following h

/-- Decodes the bytes that are left, after `index` bytes that gave the characters of `done`, newest
first.  A character is read from its shortest form only, so it takes the bytes that it is written
with. -/
def decodeFrom (done : List Char) (index : Nat) : List UInt8 → Except Error String
  | [] => .ok (String.ofList done.reverse)
  | b :: bytes =>
    match _ : sequence b bytes with
    | .ok (c, rest) => decodeFrom (c :: done) (index + c.utf8Size) rest
    | .error flaw => .error ⟨index, flaw⟩
termination_by bytes => bytes.length
decreasing_by exact Nat.lt_succ_of_le (length_of_sequence ‹_›)

/-- The text that the bytes encode. -/
def decode (bytes : List UInt8) : Except Error String := decodeFrom [] 0 bytes

/-- Decodes the bytes that are left after the characters of `done`, newest first, with one
replacement character in the place of every part that encodes nothing. -/
def decodeLossyFrom (done : List Char) : List UInt8 → String
  | [] => String.ofList done.reverse
  | b :: bytes =>
    match h : sequence b bytes with
    | .ok (c, rest) => decodeLossyFrom (c :: done) rest
    | .error .incomplete => String.ofList ('\uFFFD' :: done).reverse
    | .error (.invalid length) => decodeLossyFrom ('\uFFFD' :: done) (bytes.drop (length - 1))
termination_by bytes => bytes.length
decreasing_by
  · have := length_of_sequence h
    simp only [List.length_cons]
    omega
  · simp only [List.length_drop, List.length_cons]
    omega

/-- The text that the bytes encode, as far as they encode one. -/
def decodeLossy (bytes : List UInt8) : String := decodeLossyFrom [] bytes

end Utf8

/-! ### UTF-16 -/

/-- The units of one character. -/
def charUnits (c : Char) : List Word :=
  let n := c.toNat
  if n < 0x10000 then [BitVec.ofNat 16 n]
  else [BitVec.ofNat 16 (0xD800 + (n - 0x10000) / 0x400),
    BitVec.ofNat 16 (0xDC00 + (n - 0x10000) % 0x400)]

/-- The units of a text, in order. -/
def units (text : String) : List Word := text.toList.flatMap charUnits

end JackToolchain.Text
