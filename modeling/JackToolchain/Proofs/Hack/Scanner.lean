import JackToolchain.Hack.Scanner
import JackToolchain.Proofs.Hack.Places

/-!
# The tokens of a scanner

Of a source with less than `UInt32.size` bytes no offset is cut.  Then a scanner finds the tokens of
the lexer (`next?_ofCursor`): no loop runs for ever, no check fails, and both go on from the same
place.
-/

namespace JackToolchain.Hack

variable {x : Char} {cs text rest : List Char} {n size : Nat} {kind : TokenKind} {c : Cursor}

/-! ### Stretches -/

/-- A stretch, as far as 32 bits can tell. -/
def Span.extent (s : Span) : Extent := ⟨UInt32.ofNat s.index, UInt32.ofNat s.size⟩

/-- Nothing is cut off a stretch that ends within the bound. -/
theorem Span.span_extent {s : Span} (h : s.stop < UInt32.size) : s.extent.span = s := by
  have hindex : s.index < UInt32.size := Nat.lt_of_le_of_lt (Nat.le_add_right _ _) h
  have hsize : s.size < UInt32.size := Nat.lt_of_le_of_lt (Nat.le_add_left _ _) h
  unfold extent Extent.span
  rw [UInt32.toNat_ofNat_of_lt' hindex, UInt32.toNat_ofNat_of_lt' hsize]

theorem Span.stop_extent (s : Span) : s.extent.stop = UInt32.ofNat s.stop :=
  (UInt32.ofNat_add _ _).symm

section
variable {m : Nat}

theorem min_ofNat (hm : m < UInt32.size) (hn : n < UInt32.size) :
    min (UInt32.ofNat m) (UInt32.ofNat n) = UInt32.ofNat (min m n) := by
  have hle := UInt32.ofNat_le_iff_le hm hn
  by_cases h : m ≤ n
  · rw [Nat.min_eq_left h]
    exact if_pos (hle.mpr h)
  · rw [Nat.min_eq_right (Nat.le_of_not_le h)]
    exact if_neg (mt hle.mp h)

theorem max_ofNat (hm : m < UInt32.size) (hn : n < UInt32.size) :
    max (UInt32.ofNat m) (UInt32.ofNat n) = UInt32.ofNat (max m n) := by
  have hle := UInt32.ofNat_le_iff_le hm hn
  by_cases h : m ≤ n
  · rw [Nat.max_eq_right h]
    exact if_pos (hle.mpr h)
  · rw [Nat.max_eq_left (Nat.le_of_not_le h)]
    exact if_neg (mt hle.mp h)

end

/-- Nothing is cut off the stretch that covers two, either. -/
theorem Span.extent_merge {s u : Span} (hs : s.stop < UInt32.size) (hu : u.stop < UInt32.size) :
    s.extent.merge u.extent = (s.merge u).extent := by
  have hindex : s.index ≤ s.stop := Nat.le_add_right _ _
  have huindex : u.index ≤ u.stop := Nat.le_add_right _ _
  have hle : min s.index u.index ≤ max s.stop u.stop := by omega
  unfold Extent.merge Span.merge
  rw [s.stop_extent, u.stop_extent, max_ofNat hs hu]
  unfold extent
  dsimp only
  rw [min_ofNat (by omega) (by omega), UInt32.ofNat_sub hle]

/-- The mark of a token. -/
def Token.mark (t : Token) : Mark := ⟨t.kind, t.span.extent⟩

@[simp]
theorem Token.kind_mark (t : Token) : t.mark.kind = t.kind := rfl

@[simp]
theorem Token.extent_mark (t : Token) : t.mark.extent = t.span.extent := rfl

/-! ### Scanners and cursors -/

/-- The scanner at the place of a cursor, in a source of so many bytes. -/
def Scanner.ofCursor (size : Nat) (c : Cursor) : Scanner :=
  ⟨indexed c.offset c.rest, UInt32.ofNat size⟩

/-- What is in front of the cursor and what is left make up a source of so many bytes, of which no
offset is cut. -/
structure Cursor.Fits (size : Nat) (c : Cursor) : Prop where
  size_eq : c.offset + byteLength c.rest = size
  bound : size < UInt32.size

/-- Behind a text that has been taken from what is left. -/
theorem Cursor.Fits.behind (h : c.Fits size) (hrest : c.rest = text ++ rest) :
    Fits size ⟨rest, c.offset + byteLength text⟩ := by
  refine ⟨?_, h.bound⟩
  have hsize := h.size_eq
  rw [hrest, byteLength_append, ← Nat.add_assoc] at hsize
  exact hsize

theorem Cursor.Fits.offset_le (h : c.Fits size) : c.offset ≤ size :=
  Nat.le.intro h.size_eq

theorem Cursor.Fits.offset_lt (h : c.Fits size) : c.offset < UInt32.size :=
  Nat.lt_of_le_of_lt h.offset_le h.bound

theorem Cursor.Fits.skipWhile (h : c.Fits size) (p : Char → Bool) : (c.skipWhile p).Fits size :=
  h.behind List.takeWhile_append_dropWhile.symm

theorem Cursor.Fits.skipGap (h : c.Fits size) : c.skipGap.Fits size := by
  rw [skipGap_eq]
  split
  · exact (h.skipWhile isBlank).skipWhile _
  · exact h.skipWhile isBlank

theorem Cursor.Fits.tokenHere (h : c.Fits size) : c.tokenHere.2.Fits size := by
  obtain ⟨cs, n⟩ := c
  unfold Cursor.tokenHere
  split
  · next hrest => exact h.behind hrest
  · next hrest => exact h.behind hrest
  · next hrest =>
    split
    · exact h.behind hrest
    · split
      · refine h.behind (hrest.trans ?_)
        rw [List.cons_append, List.takeWhile_append_dropWhile]
      · split
        · refine h.behind (hrest.trans ?_)
          rw [List.cons_append, List.takeWhile_append_dropWhile]
        · exact h.behind hrest

theorem Cursor.Fits.next (h : c.Fits size) : c.next.2.Fits size := h.skipGap.tokenHere

theorem Cursor.Fits.of_next {t : Token} {d : Cursor} (h : c.Fits size) (hnext : c.next = (t, d)) :
    d.Fits size := by
  have hd := h.next
  rwa [hnext] at hd

/-- The lexer goes on where a token ends. -/
theorem Cursor.offset_next (c : Cursor) : c.next.2.offset = c.next.1.span.stop := by
  unfold Cursor.next Cursor.tokenHere
  split
  · rfl
  · rfl
  · split
    · rfl
    · split
      · rfl
      · split <;> rfl

theorem Cursor.skipWhile_cons {p : Char → Bool} (h : p x = true) :
    skipWhile ⟨x :: cs, n⟩ p = skipWhile ⟨cs, n + x.utf8Size⟩ p := by
  unfold skipWhile
  rw [List.dropWhile_cons_of_pos h, List.takeWhile_cons_of_pos h, byteLength_cons, Nat.add_assoc]

theorem Cursor.skipWhile_cons_of_not {p : Char → Bool} (h : p x = false) :
    skipWhile ⟨x :: cs, n⟩ p = ⟨x :: cs, n⟩ := by
  have hx : ¬p x = true := Bool.eq_false_iff.mp h
  unfold skipWhile
  rw [List.dropWhile_cons_of_neg hx, List.takeWhile_cons_of_neg hx]
  rfl

namespace Scanner

theorem ofCursor_nil (size n : Nat) : ofCursor size ⟨[], n⟩ = ⟨[], UInt32.ofNat size⟩ := rfl

theorem advance_ofCursor_cons (size : Nat) (x : Char) (cs : List Char) (n : Nat) :
    (ofCursor size ⟨x :: cs, n⟩).advance = ofCursor size ⟨cs, n + x.utf8Size⟩ := rfl

theorem left_ofCursor_cons (size : Nat) (x : Char) (cs : List Char) (n : Nat) :
    ¬(ofCursor size ⟨x :: cs, n⟩).left.isEmpty = true := Bool.false_ne_true

/-- The offset is right behind the last character, too. -/
theorem offset_ofCursor (h : c.Fits size) : (ofCursor size c).offset = UInt32.ofNat c.offset := by
  obtain ⟨cs, n⟩ := c
  cases cs with
  | nil => exact congrArg UInt32.ofNat h.size_eq.symm
  | cons x cs => rfl

/-- **The end of the source** is where no character is left, be the character in view a NUL
character or not. -/
theorem atEnd_ofCursor (h : c.Fits size) : (ofCursor size c).atEnd = true ↔ c.rest = [] := by
  show decide (UInt32.ofNat size ≤ (ofCursor size c).offset) = true ↔ _
  rw [offset_ofCursor h, decide_eq_true_eq, UInt32.ofNat_le_iff_le h.bound h.offset_lt]
  have hsize := h.size_eq
  constructor
  · intro hend
    by_contra hrest
    have hpos := byteLength_pos hrest
    omega
  · intro hrest
    rw [hrest] at hsize
    exact Nat.le_of_eq hsize.symm

theorem atEnd_ofCursor_cons (h : Cursor.Fits size ⟨x :: cs, n⟩) :
    (ofCursor size ⟨x :: cs, n⟩).atEnd = false := by
  rw [Bool.eq_false_iff]
  intro hend
  exact List.cons_ne_nil x cs ((atEnd_ofCursor h).mp hend)

/-! ### Loops -/

/-- A loop over the character in view skips a run. -/
theorem advanceWhile_ofCursor {p : Scanner → Bool} {q : Char → Bool}
    (hend : p ⟨[], UInt32.ofNat size⟩ = false)
    (hchar : ∀ x cs n, Cursor.Fits size ⟨x :: cs, n⟩ → p (ofCursor size ⟨x :: cs, n⟩) = q x)
    (h : c.Fits size) :
    (ofCursor size c).advanceWhile p = some (ofCursor size (c.skipWhile q)) := by
  obtain ⟨cs, n⟩ := c
  induction cs generalizing n with
  | nil =>
    rw [advanceWhile, ofCursor_nil, if_neg (Bool.eq_false_iff.mp hend)]
    rfl
  | cons x cs ih =>
    rw [advanceWhile, hchar x cs n h]
    by_cases hx : q x = true
    · have hone : byteLength [x] = x.utf8Size := Nat.zero_add _
      have hnext : Cursor.Fits size ⟨cs, n + byteLength [x]⟩ := h.behind rfl
      rw [hone] at hnext
      rw [if_pos hx, if_neg (left_ofCursor_cons size x cs n), advance_ofCursor_cons, ih _ hnext,
        Cursor.skipWhile_cons hx]
    · rw [if_neg hx, Cursor.skipWhile_cons_of_not (Bool.eq_false_iff.mpr hx)]

/-- A loop over the character behind the one in view leaves the last character of a run in view. -/
theorem advanceWhile_peek {q : Char → Bool} (hnul : q '\x00' = false) (size : Nat) (x : Char)
    (cs : List Char) (n : Nat) :
    ∃ s, (ofCursor size ⟨x :: cs, n⟩).advanceWhile (fun s => q s.peek) = some s ∧
      s.advance = ofCursor size (Cursor.skipWhile ⟨cs, n + x.utf8Size⟩ q) := by
  induction cs generalizing x n with
  | nil =>
    refine ⟨ofCursor size ⟨[x], n⟩, ?_, rfl⟩
    rw [advanceWhile, if_neg]
    exact Bool.eq_false_iff.mp hnul
  | cons y cs ih =>
    have hpeek : (ofCursor size ⟨x :: y :: cs, n⟩).peek = y := rfl
    by_cases hy : q y = true
    · obtain ⟨s, hs, hadvance⟩ := ih y (n + x.utf8Size)
      refine ⟨s, ?_, ?_⟩
      · rw [advanceWhile, hpeek, if_pos hy, if_neg (left_ofCursor_cons size x (y :: cs) n)]
        exact hs
      · rw [hadvance, Cursor.skipWhile_cons hy]
    · refine ⟨ofCursor size ⟨x :: y :: cs, n⟩, ?_, ?_⟩
      · rw [advanceWhile, hpeek, if_neg hy]
      · rw [advance_ofCursor_cons, Cursor.skipWhile_cons_of_not (Bool.eq_false_iff.mpr hy)]

/-! ### Tokens -/

/-- **The checks are passed** by every scanner that has the last character of a token in view. -/
theorem mark?_of_token (kind : TokenKind) (text : List Char) {s : Scanner} (h : c.Fits size)
    (hrest : c.rest = text ++ rest)
    (hs : s.advance = ofCursor size ⟨rest, c.offset + byteLength text⟩) :
    s.mark? (UInt32.ofNat c.offset) kind =
      some ((c.token kind text rest).1.mark, ofCursor size (c.token kind text rest).2) := by
  have hfits := h.behind hrest
  have hpeek : s.peekOffset = UInt32.ofNat (c.offset + byteLength text) := by
    unfold peekOffset
    rw [hs, offset_ofCursor hfits]
  have hsize : UInt32.ofNat (c.offset + byteLength text) - UInt32.ofNat c.offset =
      UInt32.ofNat (byteLength text) := by
    rw [← UInt32.ofNat_sub (Nat.le_add_right _ _), Nat.add_sub_cancel_left]
  have hstart : UInt32.ofNat c.offset ≤ UInt32.ofNat (c.offset + byteLength text) :=
    (UInt32.ofNat_le_iff_le h.offset_lt hfits.offset_lt).mpr (Nat.le_add_right _ _)
  unfold mark?
  rw [hpeek, if_pos hstart]
  dsimp only
  rw [hs, offset_ofCursor hfits, hsize]
  exact if_pos (UInt32.ofNat_add _ _)

/-- A token of one character. -/
theorem mark?_of_char (kind : TokenKind) (h : Cursor.Fits size ⟨x :: cs, n⟩) :
    (ofCursor size ⟨x :: cs, n⟩).mark? (UInt32.ofNat n) kind =
      some ((Cursor.token ⟨x :: cs, n⟩ kind [x] cs).1.mark,
        ofCursor size (Cursor.token ⟨x :: cs, n⟩ kind [x] cs).2) := by
  refine mark?_of_token kind [x] h rfl ?_
  rw [advance_ofCursor_cons, byteLength_cons]
  rfl

/-- A token that is as long as its characters go on. -/
theorem mark?_of_run {q : Char → Bool} (hnul : q '\x00' = false) (kind : TokenKind)
    (h : Cursor.Fits size ⟨x :: cs, n⟩) :
    ((ofCursor size ⟨x :: cs, n⟩).advanceWhile fun s => q s.peek).bind
      (mark? (UInt32.ofNat n) kind) =
      some ((Cursor.token ⟨x :: cs, n⟩ kind (x :: cs.takeWhile q) (cs.dropWhile q)).1.mark,
        ofCursor size
          (Cursor.token ⟨x :: cs, n⟩ kind (x :: cs.takeWhile q) (cs.dropWhile q)).2) := by
  obtain ⟨s, hs, hadvance⟩ := advanceWhile_peek hnul size x cs n
  rw [hs, Option.bind_some]
  refine mark?_of_token kind _ h ?_ ?_
  · rw [List.cons_append, List.takeWhile_append_dropWhile]
  · rw [hadvance, byteLength_cons, ← Nat.add_assoc]
    rfl

/-- The two characters that a scanner can look at.  A NUL character may be none, so it is left
out. -/
theorem current_peek_iff {a b : Char} (ha : a ≠ '\x00') (hb : b ≠ '\x00') (size : Nat)
    (c : Cursor) :
    (ofCursor size c).current = a ∧ (ofCursor size c).peek = b ↔ [a, b] <+: c.rest := by
  obtain ⟨cs, n⟩ := c
  match cs with
  | [] => exact iff_of_false (fun h => ha h.1.symm) (fun h => nomatch h)
  | [x] =>
    refine iff_of_false (fun h => hb h.2.symm) fun h => ?_
    exact absurd (show 2 ≤ 1 from h.length_le) (by decide)
  | x :: y :: cs =>
    show x = a ∧ y = b ↔ _
    rw [List.cons_prefix_cons, List.cons_prefix_cons]
    constructor
    · rintro ⟨rfl, rfl⟩
      exact ⟨rfl, rfl, List.nil_prefix⟩
    · rintro ⟨hx, hy, -⟩
      exact ⟨hx.symm, hy.symm⟩

theorem tokenHere?_ofCursor (h : c.Fits size) :
    (ofCursor size c).tokenHere? = some (c.tokenHere.1.mark, ofCursor size c.tokenHere.2) := by
  have hoffset := offset_ofCursor h
  have hlook := current_peek_iff (a := '\r') (b := '\n') (by decide) (by decide) size c
  unfold tokenHere?
  rw [hoffset]
  obtain ⟨cs, n⟩ := c
  cases cs with
  | nil =>
    -- Behind the last character the scanner has a NUL character in view, which is an end of file.
    exact mark?_of_token .endOfFile [] h rfl rfl
  | cons x cs =>
    by_cases hcrlf : ['\r', '\n'] <+: x :: cs
    · rw [if_pos (hlook.mpr hcrlf)]
      obtain ⟨rest, hrest⟩ := hcrlf
      obtain ⟨rfl, rfl⟩ := List.cons.inj hrest
      exact mark?_of_token .newline ['\r', '\n'] h rfl rfl
    · have hreturn : x = '\r' → ∀ d ∈ cs.head?, d ≠ '\n' := by
        rintro rfl d hd rfl
        obtain ⟨rest, rfl⟩ := List.head?_eq_some_iff.mp hd
        exact hcrlf ⟨rest, rfl⟩
      have hcurrent : (ofCursor size ⟨x :: cs, n⟩).current = x := rfl
      rw [if_neg (mt hlook.mp hcrlf), hcurrent, Cursor.tokenHere_cons hreturn]
      cases TokenKind.ofChar? x with
      | some kind => exact mark?_of_char kind h
      | none =>
        dsimp only
        by_cases hstart : isSymbolStart x = true
        · rw [if_pos hstart, if_pos hstart]
          exact mark?_of_run (by decide) .symbol h
        · by_cases hdigit : x.isDigit = true
          · rw [if_neg hstart, if_neg hstart, if_pos hdigit, if_pos hdigit]
            exact mark?_of_run (by decide) .number h
          · rw [if_neg hstart, if_neg hstart, if_neg hdigit, if_neg hdigit]
            exact mark?_of_char .unknown h

theorem skipComment?_ofCursor (h : c.Fits size) :
    (ofCursor size c).skipComment? = some (ofCursor size
      (if ['/', '/'] <+: c.rest then c.skipWhile fun x => !isNewline x else c)) := by
  have hlook := current_peek_iff (a := '/') (b := '/') (by decide) (by decide) size c
  unfold skipComment?
  by_cases hcomment : ['/', '/'] <+: c.rest
  · rw [if_pos (hlook.mpr hcomment), if_pos hcomment]
    refine advanceWhile_ofCursor ?_ ?_ h
    · -- A NUL character ends no line, so only the offset tells the loop that the source has ended.
      show (!isNewline '\x00' && !decide (UInt32.ofNat size ≤ UInt32.ofNat size)) = false
      rw [decide_eq_true (UInt32.le_refl _)]
      rfl
    · intro x cs n hfits
      show (!isNewline x && !(ofCursor size ⟨x :: cs, n⟩).atEnd) = !isNewline x
      rw [atEnd_ofCursor_cons hfits]
      exact Bool.and_true _
  · rw [if_neg (mt hlook.mp hcomment), if_neg hcomment]

/-- The blanks in front of a token. -/
theorem advanceWhile_isBlank (h : c.Fits size) :
    (ofCursor size c).advanceWhile (fun s => isBlank s.current) =
      some (ofCursor size (c.skipWhile isBlank)) :=
  advanceWhile_ofCursor rfl (fun _ _ _ _ => rfl) h

/-- **A scanner finds the tokens of the lexer**, and goes on where the lexer does. -/
theorem next?_ofCursor (h : c.Fits size) :
    (ofCursor size c).next? = some (c.next.1.mark, ofCursor size c.next.2) := by
  have hcomment := skipComment?_ofCursor (h.skipWhile isBlank)
  rw [← Cursor.skipGap_eq] at hcomment
  unfold next?
  rw [advanceWhile_isBlank h]
  show (ofCursor size (c.skipWhile isBlank)).skipComment?.bind tokenHere? = _
  rw [hcomment]
  exact tokenHere?_ofCursor h.skipGap

end Scanner

/-! ### Runs -/

/-- A cursor yields the tokens that are left.  Like those of a scanner, they end with the end of
file at the end of the source. -/
inductive Cursor.Yields : Cursor → List Token → Prop where
  | last {c d : Cursor} {t : Token} : c.next = (t, d) → t.kind = .endOfFile → d.rest = [] →
      Yields c [t]
  | more {c d : Cursor} {t : Token} {ts : List Token} : c.next = (t, d) →
      (t.kind = .endOfFile → d.rest ≠ []) → Yields d ts → Yields c (t :: ts)

theorem Cursor.yields_of_tiling {ts : List Token} (h : Tiling n cs ts) : Yields ⟨cs, n⟩ ts := by
  induction h with
  | stop hgap => exact .last (next_of_end hgap) rfl rfl
  | @last n gap text hgap hspells =>
    rw [← List.append_nil text] at hgap
    have hnext : next ⟨gap ++ (text ++ []), n⟩ = _ := next_of_spells hgap hspells
    rw [List.append_nil text] at hnext
    exact .last hnext rfl rfl
  | token hgap hspells hmore _ ih => exact .more (next_of_spells hgap hspells) hmore ih

theorem Cursor.yields_tokens (source : String) :
    (Cursor.ofSource source).Yields (tokens source) :=
  yields_of_tiling (tiling_tokens source)

/-- One token: the scanner finds it, and goes on where it ends. -/
theorem Scanner.next?_of_next {t : Token} {d : Cursor} (h : c.Fits size) (hnext : c.next = (t, d)) :
    (ofCursor size c).next? = some (t.mark, ofCursor size d) ∧ d.Fits size ∧
      (ofCursor size d).offset = t.mark.extent.stop := by
  have hscan := next?_ofCursor h
  have hd := h.next
  have hoffset := c.offset_next
  rw [hnext] at hscan hd hoffset
  refine ⟨hscan, hd, ?_⟩
  rw [offset_ofCursor hd, hoffset]
  exact t.span.stop_extent.symm

/-- **A scanner yields what the cursor does**, and behind each token it stands where the token
ends. -/
theorem Scanner.yields_ofCursor {ts : List Token} (h : c.Yields ts) (hfits : c.Fits size) :
    ∃ run, (ofCursor size c).Yields run ∧ run.map Prod.fst = ts.map Token.mark ∧
      ∀ e ∈ run, e.2.offset = e.1.extent.stop := by
  induction h with
  | last hnext hkind hrest =>
    obtain ⟨hscan, hd, hoffset⟩ := next?_of_next hfits hnext
    refine ⟨_, .last hscan hkind ((atEnd_ofCursor hd).mpr hrest), rfl, ?_⟩
    exact List.forall_mem_singleton.mpr hoffset
  | more hnext hmore _ ih =>
    obtain ⟨hscan, hd, hoffset⟩ := next?_of_next hfits hnext
    obtain ⟨run, hrun, hmap, hoffsets⟩ := ih hd
    refine ⟨_, .more hscan ?_ hrun, ?_, List.forall_mem_cons.mpr ⟨hoffset, hoffsets⟩⟩
    · rintro ⟨hkind, hend⟩
      exact hmore hkind ((atEnd_ofCursor hd).mp hend)
    · rw [List.map_cons, List.map_cons, hmap]

end JackToolchain.Hack
