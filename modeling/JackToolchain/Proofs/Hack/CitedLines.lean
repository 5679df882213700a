import Mathlib.Data.List.DropRight
import JackToolchain.Hack.Reader
import JackToolchain.Proofs.Hack.Places

/-!
# What a place says

A place is computed from slices of the source: what stands in front of a line, the line up to an
offset, and the whole line.  A line begins behind a line feed, or behind the carriage return that
follows it directly (`LineStart`).  The line of an offset between these two characters would begin
behind it, and the slices would not even be in order.  Around any other offset (`Citable`) reading
finds the line (`surroundingLine_eq`).  Then all slices consist of whole characters of the source,
and the place says how many line feeds are in front of the offset, how many characters of its line
are, and how the line reads (`Place.describes_ofSpan`).
-/

namespace JackToolchain.Hack

variable {text front rest before after inLine x y : List Char} {index start stop offset : Nat}
  {s : Span}

/-! ### Slices -/

/-- The characters of a text between two byte offsets.  Both offsets lie between characters, the
second one not before the first one. -/
def IsSlice (text : List Char) (start stop : Nat) (part : List Char) : Prop :=
  ∃ front behind, text = front ++ (part ++ behind) ∧ start = byteLength front ∧
    stop = start + byteLength part

theorem dropBytes_whole (x y : List Char) : dropBytes (byteLength x) (x ++ y) = y := by
  have h := dropBytes_append x y 0
  rwa [Nat.add_zero, dropBytes_zero] at h

theorem takeBytes_whole (x y : List Char) : takeBytes (byteLength x) (x ++ y) = x := by
  rw [takeBytes_append (Nat.le_refl _)]
  unfold takeBytes
  induction x with
  | nil => rfl
  | cons c x ih =>
    have hpos := c.utf8Size_pos
    have hne : c.utf8Size + byteLength x ≠ 0 := by omega
    have hrest : c.utf8Size + byteLength x - c.utf8Size = byteLength x := by omega
    rw [byteLength_cons, takeBytesFrom, if_neg hne, takeBytesFrom_eq, hrest]
    exact congrArg (c :: ·) ih

/-- A slice of a text is what is taken of it. -/
theorem IsSlice.fragment_eq {part : List Char} (h : IsSlice text s.index s.stop part) :
    s.fragment text = part := by
  obtain ⟨front, behind, rfl, hindex, hstop⟩ := h
  have hsize : s.size = byteLength part := Nat.add_left_cancel hstop
  unfold Span.fragment
  rw [hindex, dropBytes_whole, hsize, takeBytes_whole]

theorem cut?_append (x y : List Char) : cut? (byteLength x) (x ++ y) = some (x, y) := by
  induction x with
  | nil => cases y <;> rfl
  | cons c x ih =>
    have hpos := c.utf8Size_pos
    have hne : c.utf8Size + byteLength x ≠ 0 := by omega
    have hrest : c.utf8Size + byteLength x - c.utf8Size = byteLength x := by omega
    rw [byteLength_cons, List.cons_append, cut?, if_neg hne, if_pos (Nat.le_add_right _ _), hrest,
      ih]
    rfl

/-- A text is cut between two characters only. -/
theorem eq_append_of_cut? {n : Nat} (h : cut? n text = some (x, y)) :
    text = x ++ y ∧ n = byteLength x := by
  induction text generalizing n x with
  | nil =>
    rw [cut?] at h
    by_cases hn : n = 0
    · rw [if_pos hn] at h
      cases h
      exact ⟨rfl, hn⟩
    · rw [if_neg hn] at h
      cases h
  | cons c text ih =>
    rw [cut?] at h
    by_cases hn : n = 0
    · rw [if_pos hn] at h
      cases h
      exact ⟨rfl, hn⟩
    · rw [if_neg hn] at h
      by_cases hle : c.utf8Size ≤ n
      · rw [if_pos hle] at h
        obtain ⟨⟨front, behind⟩, hcut, heq⟩ := Option.map_eq_some_iff.mp h
        cases heq
        obtain ⟨rfl, hfront⟩ := ih hcut
        refine ⟨rfl, ?_⟩
        rw [byteLength_cons]
        omega
      · rw [if_neg hle] at h
        cases h

/-- **A slice can be taken** if and only if it consists of whole characters of the text. -/
theorem slice?_eq_some_iff {part : List Char} :
    slice? text start stop = some part ↔ IsSlice text start stop part := by
  constructor
  · intro h
    obtain ⟨⟨front, behind⟩, hfront, h⟩ := Option.bind_eq_some_iff.mp h
    dsimp only at h
    by_cases hstop : stop < start
    · rw [if_pos hstop] at h
      cases h
    · rw [if_neg hstop] at h
      obtain ⟨⟨part', rest⟩, hpart, heq⟩ := Option.bind_eq_some_iff.mp h
      obtain rfl : part' = part := Option.some.inj heq
      obtain ⟨rfl, hstart⟩ := eq_append_of_cut? hfront
      obtain ⟨rfl, hsize⟩ := eq_append_of_cut? hpart
      exact ⟨front, rest, rfl, hstart, by omega⟩
  · rintro ⟨front, behind, rfl, rfl, rfl⟩
    unfold slice?
    rw [cut?_append, Option.bind_eq_bind, Option.bind_some]
    dsimp only
    rw [if_neg (Nat.not_lt.mpr (Nat.le_add_right _ _)), Nat.add_sub_cancel_left, cut?_append]
    rfl

/-- A slice ends in its text. -/
theorem IsSlice.stop_le {part : List Char} (h : IsSlice text start stop part) :
    stop ≤ byteLength text := by
  obtain ⟨front, behind, rfl, rfl, rfl⟩ := h
  rw [byteLength_append, byteLength_append]
  omega

/-! ### Where lines begin -/

/-- A line of a text begins between two parts of it: at the beginning of the text, behind a line
feed, or behind a carriage return that follows a line feed directly. -/
inductive LineStart : List Char → List Char → Prop where
  | source {after : List Char} : LineStart [] after
  | feed {lines after : List Char} : BeginsLine after → LineStart (lines ++ ['\n']) after
  | feedReturn {lines after : List Char} : LineStart (lines ++ ['\n', '\r']) after

/-- The line of an offset: the offset is in front of `rest`, its line begins with `inLine`, and
`before` stands in front of the line. -/
structure InLineOf (text : List Char) (index : Nat) (before inLine rest : List Char) : Prop where
  text_eq : text = before ++ (inLine ++ rest)
  index_eq : index = byteLength (before ++ inLine)
  start : LineStart before (inLine ++ rest)
  feed_notMem : '\n' ∉ inLine

/-- An offset between two parts of a text, either in front of a character that is no carriage return
or behind one that ends no line.  So it is neither between a line feed and a carriage return nor
behind the last line of the text. -/
def Citable (front rest : List Char) : Prop :=
  (∃ c ∈ rest.head?, c ≠ '\r') ∨ ∃ c ∈ front.getLast?, isNewline c = false

theorem Citable.head_of_newline {c : Char} (h : Citable front rest) (hc : c ∈ front.getLast?)
    (hnewline : isNewline c = true) : ∃ d ∈ rest.head?, d ≠ '\r' := by
  rcases h with h | ⟨d, hd, hother⟩
  · exact h
  · rw [Option.mem_unique hd hc, hnewline] at hother
    cases hother

/-- A text with a line feed, divided behind its last one. -/
theorem exists_lastFeed (h : '\n' ∈ text) :
    ∃ lines line, text = lines ++ '\n' :: line ∧ '\n' ∉ line := by
  obtain ⟨line, lines, hreverse, hline⟩ := List.eq_append_cons_of_mem (List.mem_reverse.mpr h)
  refine ⟨lines.reverse, line.reverse, ?_, mt List.mem_reverse.mp hline⟩
  rw [← List.reverse_reverse text, hreverse]
  simp

/-- **A citable offset has a line**, in which there is something. -/
theorem Citable.exists_inLineOf (h : Citable front rest) :
    ∃ before inLine, InLineOf (front ++ rest) (byteLength front) before inLine rest ∧
      inLine ++ rest ≠ [] := by
  by_cases hfeed : '\n' ∈ front
  · obtain ⟨lines, line, rfl, hline⟩ := exists_lastFeed hfeed
    cases line with
    | nil =>
      -- The offset is right behind the line feed, and no carriage return follows.
      obtain ⟨d, hd, hreturn⟩ := h.head_of_newline List.getLast?_concat (by decide)
      obtain ⟨rest, rfl⟩ := List.head?_eq_some_iff.mp hd
      refine ⟨lines ++ ['\n'], [], ⟨rfl, by rw [List.append_nil], .feed ?_, List.not_mem_nil⟩,
        List.cons_ne_nil _ _⟩
      rintro _ ⟨⟩
      exact hreturn
    | cons c line =>
      have hmem := mt List.mem_cons.mpr hline
      by_cases hc : c = '\r'
      · subst hc
        have hsplit : lines ++ '\n' :: '\r' :: line = (lines ++ ['\n', '\r']) ++ line := by
          rw [List.append_assoc]
          rfl
        refine ⟨lines ++ ['\n', '\r'], line,
          ⟨?_, by rw [hsplit], .feedReturn, fun h => hmem (.inr h)⟩, ?_⟩
        · rw [hsplit, List.append_assoc]
        · rintro hnil
          obtain ⟨rfl, rfl⟩ := List.append_eq_nil_iff.mp hnil
          have hlast : (lines ++ ['\n', '\r']).getLast? = some '\r' := by simp
          obtain ⟨d, hd, -⟩ := h.head_of_newline hlast (by decide)
          cases hd
      · have hsplit : lines ++ '\n' :: c :: line = (lines ++ ['\n']) ++ (c :: line) := by
          rw [List.append_assoc]
          rfl
        refine ⟨lines ++ ['\n'], c :: line, ⟨?_, by rw [hsplit], .feed ?_, hline⟩,
          List.cons_ne_nil _ _⟩
        · rw [hsplit, List.append_assoc]
        · rintro _ ⟨⟩
          exact hc
  · refine ⟨[], front, ⟨rfl, rfl, .source, hfeed⟩, fun hnil => ?_⟩
    obtain ⟨rfl, rfl⟩ := List.append_eq_nil_iff.mp hnil
    rcases h with ⟨c, hc, -⟩ | ⟨c, hc, -⟩ <;> cases hc

/-! ### Reading up to a line -/

/-- Reading comes to each line feed in front of the offset.  Where the current line began is
lost. -/
theorem lineFrom_feed (h : offset + byteLength x ≤ index) (start : Nat) (y : List Char) :
    ∃ start', lineFrom index start offset (x ++ '\n' :: y) =
      lineFrom index start' (offset + byteLength x) ('\n' :: y) := by
  have hfeed : '\n'.utf8Size = 1 := rfl
  have hreturn : '\r'.utf8Size = 1 := rfl
  fun_induction lineFrom index start offset x with
  | case1 start offset => exact ⟨start, rfl⟩
  | case2 start offset cs hless ih =>
    have hsize : offset + byteLength ('\n' :: '\r' :: cs) = offset + 2 + byteLength cs := by
      rw [byteLength_cons, byteLength_cons]
      omega
    rw [hsize] at h ⊢
    rw [List.cons_append, List.cons_append, lineFrom, if_pos hless]
    cases cs with
    | nil => exact ⟨offset + 2, rfl⟩
    | cons d cs => exact ih h
  | case3 start offset cs hless =>
    rw [byteLength_cons] at h
    omega
  | case4 start offset cs hcarry hless ih =>
    have hsize : offset + byteLength ('\n' :: cs) = offset + 1 + byteLength cs := by
      rw [byteLength_cons]
      omega
    rw [hsize] at h ⊢
    rw [List.cons_append, lineFrom, if_pos hless]
    · cases cs with
      | nil => exact ⟨offset + 1, rfl⟩
      | cons d cs => exact ih h
    · exact head_append_ne_return (.inr fun c hc => by cases hc; decide) hcarry
  | case5 start offset cs hcarry hless =>
    rw [byteLength_cons] at h
    omega
  | case6 start offset c cs hcarry hc ih =>
    rw [byteLength_cons, ← Nat.add_assoc] at h ⊢
    rw [List.cons_append, lineFrom]
    · exact ih h
    · exact fun rest heq => absurd heq hc
    · exact hc

/-- Reading comes to the beginning of the line of the offset. -/
theorem lineFrom_lineStart (h : LineStart before after) (hne : after ≠ [])
    (hindex : byteLength before ≤ index) :
    lineFrom index 0 0 (before ++ after) =
      lineFrom index (byteLength before) (byteLength before) after := by
  have hempty : after.isEmpty = false := List.isEmpty_eq_false_iff.mpr hne
  cases h with
  | source => rfl
  | @feed lines _ hbegins =>
    have hsize : byteLength (lines ++ ['\n']) = 0 + byteLength lines + 1 := by
      rw [byteLength_append, Nat.zero_add]
      rfl
    have hless : 0 + byteLength lines < index := by omega
    obtain ⟨start, hstart⟩ := lineFrom_feed (Nat.le_of_lt hless) 0 after
    rw [List.append_assoc, List.singleton_append, hstart, lineFrom, if_pos hless, hempty, hsize]
    · rfl
    · rintro cs rfl
      exact hbegins '\r' rfl rfl
  | @feedReturn lines =>
    have hsize : byteLength (lines ++ ['\n', '\r']) = 0 + byteLength lines + 2 := by
      rw [byteLength_append, Nat.zero_add]
      rfl
    have hless : 0 + byteLength lines < index := by omega
    obtain ⟨start, hstart⟩ := lineFrom_feed (Nat.le_of_lt hless) 0 ('\r' :: after)
    rw [List.append_assoc, List.cons_append, List.singleton_append, hstart, lineFrom, if_pos hless,
      hempty, hsize]
    rfl

/-- Reading goes on in a line. -/
theorem lineFrom_noFeed (h : '\n' ∉ x) (y : List Char) :
    lineFrom index start offset (x ++ y) = lineFrom index start (offset + byteLength x) y := by
  induction x generalizing offset with
  | nil => rfl
  | cons c x ih =>
    obtain ⟨hc, hx⟩ := not_or.mp (mt List.mem_cons.mpr h)
    rw [List.cons_append, lineFrom, ih hx, byteLength_cons, Nat.add_assoc]
    · exact fun rest heq => absurd heq.symm hc
    · exact fun heq => hc heq.symm

/-- A text up to its first line feed. -/
def lineOf (text : List Char) : List Char := text.takeWhile (· != '\n')

theorem feed_notMem_lineOf (text : List Char) : '\n' ∉ lineOf text := fun h =>
  absurd (Text.of_mem_takeWhile h) (by decide)

theorem lineOf_append (h : '\n' ∉ x) (y : List Char) : lineOf (x ++ y) = x ++ lineOf y := by
  refine List.takeWhile_append_of_pos fun c hc => bne_iff_ne.mpr ?_
  rintro rfl
  exact h hc

/-- Reading ends with the line that the offset is in, behind what ends the line. -/
theorem lineFrom_end (h : index ≤ offset) (start : Nat) (rest : List Char) :
    ∃ ending behind, (∀ c ∈ ending, isNewline c = true) ∧ rest = lineOf rest ++ (ending ++ behind) ∧
      lineFrom index start offset rest =
        ⟨start, offset + byteLength (lineOf rest ++ ending) - start⟩ := by
  have hsplit : rest = lineOf rest ++ rest.dropWhile (· != '\n') :=
    List.takeWhile_append_dropWhile.symm
  have hread : lineFrom index start offset rest =
      lineFrom index start (offset + byteLength (lineOf rest)) (rest.dropWhile (· != '\n')) := by
    conv_lhs => rw [hsplit]
    exact lineFrom_noFeed (feed_notMem_lineOf rest) _
  have hlate : ¬offset + byteLength (lineOf rest) < index := by omega
  cases hdrop : rest.dropWhile (· != '\n') with
  | nil =>
    rw [hdrop] at hsplit hread
    refine ⟨[], [], List.forall_mem_nil _, hsplit, hread.trans ?_⟩
    rw [List.append_nil, lineFrom]
  | cons c behind =>
    have hc : c = '\n' := by
      have hhead : c ∈ (rest.dropWhile (· != '\n')).head? := by
        rw [hdrop]
        rfl
      have hfeed := Text.of_head?_dropWhile hhead
      exact bne_eq_false_iff_eq.mp hfeed
    subst hc
    rw [hdrop] at hsplit hread
    by_cases hreturn : '\r' ∈ behind.head?
    · obtain ⟨behind, rfl⟩ := List.head?_eq_some_iff.mp hreturn
      refine ⟨['\n', '\r'], behind, by decide, hsplit, hread.trans ?_⟩
      rw [lineFrom, if_neg hlate, byteLength_append, ← Nat.add_assoc]
      rfl
    · refine ⟨['\n'], behind, by decide, hsplit, hread.trans ?_⟩
      rw [lineFrom, if_neg hlate, byteLength_append, ← Nat.add_assoc]
      · rfl
      · rintro cs rfl
        exact hreturn rfl

/-- **The line around an offset** begins where the line of the offset begins, and ends behind what
ends it. -/
theorem surroundingLine_eq (h : InLineOf text s.index before inLine rest)
    (hne : inLine ++ rest ≠ []) : ∃ ending behind, (∀ c ∈ ending, isNewline c = true) ∧
      inLine ++ rest = lineOf (inLine ++ rest) ++ (ending ++ behind) ∧
      s.surroundingLine text =
        ⟨byteLength before, byteLength (lineOf (inLine ++ rest) ++ ending)⟩ := by
  have hlength : s.index = byteLength before + byteLength inLine := by
    rw [h.index_eq, byteLength_append]
  obtain ⟨ending, behind, hending, hrest, hline⟩ :=
    lineFrom_end (Nat.le_of_eq hlength) (byteLength before) rest
  have hlineOf := lineOf_append h.feed_notMem rest
  have hwhole : byteLength (inLine ++ (lineOf rest ++ ending)) =
      byteLength inLine + byteLength (lineOf rest ++ ending) :=
    byteLength_append
  refine ⟨ending, behind, hending, ?_, ?_⟩
  · rw [hlineOf, List.append_assoc, ← hrest]
  · unfold Span.surroundingLine
    rw [h.text_eq, lineFrom_lineStart h.start hne (by omega), lineFrom_noFeed h.feed_notMem,
      hline, hlineOf, List.append_assoc, hwhole]
    congr 1
    omega

/-! ### Places -/

/-- What a place says of an offset in front of `rest`, with `inLine` in front of it in its line and
`before` in front of the line: the line feeds in front of it and the characters of its line in front
of it, both counted from one, and the line up to the next line feed without the carriage returns at
its end. -/
structure Place.Describes (p : Place) (before inLine rest : List Char) : Prop where
  line : p.line = (before ++ inLine).count '\n' + 1
  column : p.column = inLine.length + 1
  lineText : ∃ returns, lineOf (inLine ++ rest) = p.lineText.toList ++ returns ∧
    (∀ c ∈ returns, c = '\r') ∧ p.lineText.toList.getLast? ≠ some '\r'

/-- The slices that a place is computed from: the text in front of a line, the line up to an offset,
and the line with what ends it. -/
structure Span.Sliced (around : Span) (text : List Char) (index : Nat) (before inLine : List Char) :
    Prop where
  before : IsSlice text 0 around.index before
  inLine : IsSlice text around.index index inLine
  whole : IsSlice text around.index around.stop (around.fragment text)

/-- A line without what ends it. -/
theorem withoutEnding_append (hline : '\n' ∉ x) (hending : ∀ c ∈ y, isNewline c = true) :
    ∃ returns, x = withoutEnding (x ++ y) ++ returns ∧ (∀ c ∈ returns, c = '\r') ∧
      (withoutEnding (x ++ y)).getLast? ≠ some '\r' := by
  have hdrop : withoutEnding (x ++ y) = x.rdropWhile isNewline := by
    unfold withoutEnding List.rdropWhile
    rw [List.reverse_append,
      List.dropWhile_append_of_pos fun c hc => hending c (List.mem_reverse.mp hc)]
  rw [hdrop]
  refine ⟨x.rtakeWhile isNewline, List.rdropWhile_append_rtakeWhile.symm, fun c hc => ?_,
    fun hlast => ?_⟩
  · have hmem : c ∈ x := (List.rtakeWhile_suffix isNewline x).subset hc
    rcases eq_of_isNewline (List.mem_rtakeWhile_imp hc) with hreturn | hfeed
    · exact hreturn
    · exact absurd (hfeed ▸ hmem) hline
  · obtain ⟨hne, hreturn⟩ := List.mem_getLast?_eq_getLast hlast
    have hnot := List.rdropWhile_last_not isNewline x hne
    rw [← hreturn] at hnot
    exact hnot rfl

/-- **What a place says of an offset**, and what it is computed from. -/
theorem Place.describes_ofSpan (h : InLineOf text s.index before inLine rest)
    (hne : inLine ++ rest ≠ []) : (Place.ofSpan text s).Describes before inLine rest ∧
      (s.surroundingLine text).Sliced text s.index before inLine := by
  obtain ⟨ending, behind, hending, hline, haround⟩ := surroundingLine_eq h hne
  have hindex : s.index = byteLength before + byteLength inLine := by
    rw [h.index_eq, byteLength_append]
  have hcolumn : s.index - byteLength before = byteLength inLine := by omega
  have hslice : IsSlice text (byteLength before)
      (byteLength before + byteLength (lineOf (inLine ++ rest) ++ ending))
      (lineOf (inLine ++ rest) ++ ending) := by
    refine ⟨before, behind, ?_, rfl, rfl⟩
    rw [h.text_eq, List.append_assoc, ← hline]
  have hfragment : (s.surroundingLine text).fragment text = lineOf (inLine ++ rest) ++ ending := by
    refine IsSlice.fragment_eq ?_
    rw [haround]
    exact hslice
  have hbefore : takeBytes (byteLength before) text = before := by rw [h.text_eq, takeBytes_whole]
  have hinLine : takeBytes (s.index - byteLength before) (dropBytes (byteLength before) text) =
      inLine := by
    rw [h.text_eq, dropBytes_whole, hcolumn, takeBytes_whole]
  refine ⟨⟨?_, ?_, ?_⟩, ⟨?_, ?_, ?_⟩⟩
  · unfold Place.ofSpan
    dsimp only
    rw [haround, hbefore, List.count_append, List.count_eq_zero.mpr h.feed_notMem, Nat.add_zero]
  · unfold Place.ofSpan
    dsimp only
    rw [haround, hinLine]
  · unfold Place.ofSpan
    dsimp only
    rw [hfragment, String.toList_ofList]
    exact withoutEnding_append (feed_notMem_lineOf _) hending
  · rw [haround]
    exact ⟨[], inLine ++ rest, h.text_eq, rfl, (Nat.zero_add _).symm⟩
  · rw [haround]
    exact ⟨before, rest, h.text_eq, rfl, hindex⟩
  · rw [hfragment, haround]
    exact hslice

/-- A place depends on where a stretch begins only. -/
theorem Place.ofSpan_congr {s s' : Span} (h : s.index = s'.index) (text : List Char) :
    Place.ofSpan text s = Place.ofSpan text s' := by
  unfold Place.ofSpan Span.surroundingLine
  rw [h]

/-- **A place can be computed** with 32 bits, if the size of the source fits into them. -/
theorem place?_eq (hsize : byteLength text < UInt32.size)
    (h : InLineOf text s.index before inLine rest) (hne : inLine ++ rest ≠ []) :
    place? text (UInt32.ofNat s.index) = some (Place.ofSpan text s) := by
  obtain ⟨-, hsliced⟩ := Place.describes_ofSpan h hne
  have hstop := hsliced.whole.stop_le
  have hindex := hsliced.inLine.stop_le
  have haround : (s.surroundingLine text).index ≤ (s.surroundingLine text).stop :=
    Nat.le_add_right _ _
  have hbefore : takeBytes (s.surroundingLine text).index text = before := by
    have hfragment : Span.fragment ⟨0, (s.surroundingLine text).index⟩ text = before :=
      IsSlice.fragment_eq (by rw [Span.stop, Nat.zero_add]; exact hsliced.before)
    unfold Span.fragment at hfragment
    rwa [dropBytes_zero] at hfragment
  have hinLine : takeBytes (s.index - (s.surroundingLine text).index)
      (dropBytes (s.surroundingLine text).index text) = inLine := by
    obtain ⟨front, behind, htext, hfront, hlength⟩ := hsliced.inLine
    have hcolumn : s.index - (s.surroundingLine text).index = byteLength inLine := by omega
    rw [hcolumn, hfront, htext, dropBytes_whole, takeBytes_whole]
  have hindex' : (UInt32.ofNat s.index).toNat = s.index := UInt32.toNat_ofNat_of_lt' (by omega)
  have hstart' : (UInt32.ofNat (s.surroundingLine text).index).toNat =
      (s.surroundingLine text).index := UInt32.toNat_ofNat_of_lt' (by omega)
  have horder : ¬UInt32.ofNat (s.surroundingLine text).stop <
      UInt32.ofNat (s.surroundingLine text).index := by
    rw [UInt32.not_lt, UInt32.ofNat_le_iff_le (by omega) (by omega)]
    exact haround
  have hline : lineFrom s.index 0 0 text = s.surroundingLine text := rfl
  unfold place?
  rw [hindex', hline]
  dsimp only
  rw [if_neg horder, hstart', slice?_eq_some_iff.mpr hsliced.whole,
    slice?_eq_some_iff.mpr hsliced.before, slice?_eq_some_iff.mpr hsliced.inLine]
  unfold Place.ofSpan
  dsimp only
  rw [hbefore, hinLine]
  rfl

end JackToolchain.Hack
