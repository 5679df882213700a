import JackToolchain.Proofs.Hack.SourceLines

/-!
# Places in a part of a source

A message cites the line around the place that it is about.  If a source is put together from parts
that end with a line feed, that line is in one part.  So what is cited of a place in the first part
does not depend on what stands behind it (`Place.ofSpan_append`), and what is cited of a place
behind does not depend on what stands in front, apart from the number of the line
(`Place.ofSpan_shift`).  The second part must not begin with a carriage return, which would belong
to the last line of the first part.
-/

namespace JackToolchain.Hack

variable {x y cs : List Char} {c : Char} {n size : Nat} {s : Span}

/-- The stretch, where `n` bytes are put in front of the source. -/
def Span.shift (n : Nat) (s : Span) : Span := ⟨s.index + n, s.size⟩

/-- A text that may follow a line feed without changing the line in front of it. -/
def BeginsLine (text : List Char) : Prop := ∀ c ∈ text.head?, c ≠ '\r'

/-! ### Bytes of a source -/

theorem byteLength_cons (c : Char) (cs : List Char) :
    byteLength (c :: cs) = c.utf8Size + byteLength cs := by
  have hc : byteLength [c] = c.utf8Size := Nat.zero_add _
  rw [← List.singleton_append, byteLength_append, hc]

theorem dropBytes_zero (cs : List Char) : dropBytes 0 cs = cs := by
  cases cs <;> rfl

/-- A whole text is dropped first. -/
theorem dropBytes_append (x y : List Char) (n : Nat) :
    dropBytes (byteLength x + n) (x ++ y) = dropBytes n y := by
  induction x with
  | nil => exact congrArg (dropBytes · y) (Nat.zero_add n)
  | cons c x ih =>
    have hpos := c.utf8Size_pos
    have hne : c.utf8Size + byteLength x + n ≠ 0 := by omega
    have hrest : c.utf8Size + byteLength x + n - c.utf8Size = byteLength x + n := by omega
    rw [List.cons_append, byteLength_cons, dropBytes, if_neg hne, hrest, ih]

theorem takeBytesFrom_eq (done : List Char) (n : Nat) (cs : List Char) :
    takeBytesFrom done n cs = done.reverse ++ takeBytes n cs := by
  unfold takeBytes
  induction cs generalizing done n with
  | nil => exact (List.append_nil _).symm
  | cons c cs ih =>
    rw [takeBytesFrom, takeBytesFrom]
    by_cases hn : n = 0
    · rw [if_pos hn, if_pos hn, List.reverse_nil, List.append_nil]
    · rw [if_neg hn, if_neg hn, ih (c :: done), ih [c], List.reverse_cons, List.append_assoc]
      rfl

/-- What is taken of a text does not depend on what stands behind it. -/
theorem takeBytes_append (h : n ≤ byteLength x) : takeBytes n (x ++ y) = takeBytes n x := by
  unfold takeBytes
  induction x generalizing n with
  | nil =>
    obtain rfl := Nat.le_zero.mp h
    cases y <;> rfl
  | cons c x ih =>
    rw [byteLength_cons] at h
    rw [List.cons_append, takeBytesFrom, takeBytesFrom, takeBytesFrom_eq, takeBytesFrom_eq]
    by_cases hn : n = 0
    · rw [if_pos hn, if_pos hn]
    · have hrest : n - c.utf8Size ≤ byteLength x := by omega
      rw [if_neg hn, if_neg hn]
      exact congrArg _ (ih hrest)

/-! ### Lines around a place -/

/-- A stretch that begins between two characters of a text and ends inside the text. -/
def Span.WholeIn (text : List Char) (s : Span) : Prop :=
  ∃ front behind, text = front ++ behind ∧ s.index = byteLength front ∧ s.size ≤ byteLength behind

/-- A text has been read up to `rest`, which begins at `offset`, and the current line begins at
`start`. -/
def ReadTo (text : List Char) (start offset : Nat) (rest : List Char) : Prop :=
  ∃ front line, text = front ++ (line ++ rest) ∧ start = byteLength front ∧
    offset = start + byteLength line

section
variable {text rest : List Char} {start offset : Nat}

theorem ReadTo.begin (text : List Char) : ReadTo text 0 0 text := ⟨[], [], rfl, rfl, rfl⟩

theorem ReadTo.char (h : ReadTo text start offset (c :: cs)) :
    ReadTo text start (offset + c.utf8Size) cs := by
  obtain ⟨front, line, rfl, rfl, rfl⟩ := h
  refine ⟨front, line ++ [c], ?_, rfl, ?_⟩
  · rw [List.append_assoc, List.singleton_append]
  · rw [byteLength_append, byteLength_cons, show byteLength [] = 0 from rfl]
    omega

/-- Behind the ending of a line the next line begins, unless nothing follows. -/
theorem ReadTo.next (ending : List Char) (h : ReadTo text start offset (ending ++ rest)) :
    ReadTo text (if rest.isEmpty then start else offset + byteLength ending)
      (offset + byteLength ending) rest := by
  obtain ⟨front, line, rfl, rfl, rfl⟩ := h
  by_cases hrest : rest.isEmpty = true
  · refine ⟨front, line ++ ending, ?_, if_pos hrest, ?_⟩
    · rw [List.append_assoc]
    · rw [if_pos hrest, byteLength_append, Nat.add_assoc]
  · refine ⟨front ++ (line ++ ending), [], ?_, ?_, ?_⟩
    · rw [List.nil_append, List.append_assoc, List.append_assoc]
    · rw [if_neg hrest, byteLength_append, byteLength_append, Nat.add_assoc]
    · rw [if_neg hrest]
      rfl

/-- The current line, with its ending. -/
theorem ReadTo.wholeIn (ending : List Char) (h : ReadTo text start offset (ending ++ rest)) :
    Span.WholeIn text ⟨start, offset + byteLength ending - start⟩ := by
  obtain ⟨front, line, rfl, rfl, rfl⟩ := h
  refine ⟨front, line ++ (ending ++ rest), rfl, rfl, ?_⟩
  rw [byteLength_append, byteLength_append]
  dsimp only
  omega

theorem ReadTo.wholeIn_lineFrom (h : ReadTo text start offset rest) (index : Nat) :
    (lineFrom index start offset rest).WholeIn text := by
  fun_induction lineFrom index start offset rest with
  | case1 start offset => exact ReadTo.wholeIn [] h
  | case2 start offset cs hless ih => exact ih (ReadTo.next ['\n', '\r'] h)
  | case3 start offset cs hless => exact ReadTo.wholeIn ['\n', '\r'] h
  | case4 start offset cs hcarry hless ih => exact ih (ReadTo.next ['\n'] h)
  | case5 start offset cs hcarry hless => exact ReadTo.wholeIn ['\n'] h
  | case6 start offset c cs hcarry hfeed ih => exact ih h.char

end

/-- The line around a place consists of whole characters of the source. -/
theorem wholeIn_surroundingLine (s : Span) (text : List Char) :
    (s.surroundingLine text).WholeIn text :=
  (ReadTo.begin text).wholeIn_lineFrom s.index

/-- The last character of a text is the last one behind its first character, if there is one. -/
theorem getLast?_of_cons {d : Char} (h : (c :: cs).getLast? = some d) (hcs : cs ≠ []) :
    cs.getLast? = some d := by
  obtain ⟨e, es, rfl⟩ := List.exists_cons_of_ne_nil hcs
  rwa [List.getLast?_cons_cons] at h

theorem ne_nil_of_getLast? {d : Char} (h : (c :: cs).getLast? = some d) (hc : c ≠ d) : cs ≠ [] := by
  rintro rfl
  exact hc (Option.some.inj h)

theorem isEmpty_append_eq_false (h : x ≠ []) : (x ++ y).isEmpty = false :=
  List.isEmpty_eq_false_iff.mpr (List.append_ne_nil_of_left_ne_nil h y)

theorem head_append_ne_return (hx : x ≠ [] ∨ BeginsLine y) (h : ∀ rest, x = '\r' :: rest → False) :
    ∀ rest, x ++ y = '\r' :: rest → False := by
  intro rest heq
  cases x with
  | nil =>
    rcases hx with hx | hy
    · exact hx rfl
    · exact hy '\r' (by rw [show y = _ from heq]; rfl) rfl
  | cons c x =>
    cases heq
    exact h _ rfl

/-- The line around a place in front of a line feed is not changed by what stands behind. -/
theorem lineFrom_append {index start offset : Nat} (hx : x.getLast? = some '\n') (hy : BeginsLine y)
    (h : index < offset + byteLength x) :
    lineFrom index start offset (x ++ y) = lineFrom index start offset x := by
  fun_induction lineFrom index start offset x with
  | case1 start offset => cases hx
  | case2 start offset cs hless ih =>
    have htail := getLast?_of_cons hx (List.cons_ne_nil _ _)
    have hcs := ne_nil_of_getLast? htail (by decide)
    rw [byteLength_cons, byteLength_cons, show '\n'.utf8Size = 1 from rfl, show '\r'.utf8Size = 1
      from rfl] at h
    rw [List.cons_append, List.cons_append, lineFrom, if_pos hless, isEmpty_append_eq_false hcs]
    rw [List.isEmpty_eq_false_iff.mpr hcs] at ih ⊢
    exact ih (getLast?_of_cons htail hcs) (by omega)
  | case3 start offset cs hless => rw [List.cons_append, List.cons_append, lineFrom, if_neg hless]
  | case4 start offset cs hreturn hless ih =>
    rw [byteLength_cons, show '\n'.utf8Size = 1 from rfl] at h
    have hcs : cs ≠ [] := by
      rintro rfl
      rw [show byteLength [] = 0 from rfl] at h
      omega
    rw [List.cons_append, lineFrom, if_pos hless, isEmpty_append_eq_false hcs]
    · rw [List.isEmpty_eq_false_iff.mpr hcs] at ih ⊢
      exact ih (getLast?_of_cons hx hcs) (by omega)
    · exact head_append_ne_return (.inl hcs) hreturn
  | case5 start offset cs hreturn hless =>
    rw [List.cons_append, lineFrom, if_neg hless]
    exact head_append_ne_return (.inr hy) hreturn
  | case6 start offset c cs hreturn hfeed ih =>
    have hcs := ne_nil_of_getLast? hx hfeed
    rw [byteLength_cons] at h
    rw [List.cons_append, lineFrom]
    · exact ih (getLast?_of_cons hx hcs) (by omega)
    · exact fun rest hc => absurd hc hfeed
    · exact hfeed

/-- The line around a place behind a line feed begins there or later. -/
theorem lineFrom_behind {index start offset : Nat} (hx : x.getLast? = some '\n') (hy : BeginsLine y)
    (hne : y ≠ []) (h : offset + byteLength x ≤ index) : lineFrom index start offset (x ++ y) =
      lineFrom index (offset + byteLength x) (offset + byteLength x) y := by
  have hfeed : '\n'.utf8Size = 1 := rfl
  have hreturn : '\r'.utf8Size = 1 := rfl
  fun_induction lineFrom index start offset x with
  | case1 start offset => cases hx
  | case2 start offset cs hless ih =>
    have htail := getLast?_of_cons hx (List.cons_ne_nil _ _)
    have hcs := ne_nil_of_getLast? htail (by decide)
    have hsize : offset + byteLength ('\n' :: '\r' :: cs) = offset + 2 + byteLength cs := by
      rw [byteLength_cons, byteLength_cons]
      omega
    rw [List.isEmpty_eq_false_iff.mpr hcs] at ih
    rw [hsize] at h ⊢
    rw [List.cons_append, List.cons_append, lineFrom, if_pos hless, isEmpty_append_eq_false hcs]
    exact ih (getLast?_of_cons htail hcs) h
  | case3 start offset cs hless =>
    rw [byteLength_cons] at h
    omega
  | case4 start offset cs hcarry hless ih =>
    have hsize : offset + byteLength ('\n' :: cs) = offset + 1 + byteLength cs := by
      rw [byteLength_cons]
      omega
    rw [hsize] at h ⊢
    rw [List.cons_append, lineFrom, if_pos hless]
    · cases cs with
      | nil =>
        rw [List.nil_append, List.isEmpty_eq_false_iff.mpr hne]
        rfl
      | cons d cs => exact ih (getLast?_of_cons hx (List.cons_ne_nil _ _)) h
    · exact head_append_ne_return (.inr hy) hcarry
  | case5 start offset cs hcarry hless =>
    rw [byteLength_cons] at h
    omega
  | case6 start offset c cs hcarry hc ih =>
    have hcs := ne_nil_of_getLast? hx hc
    rw [byteLength_cons, ← Nat.add_assoc] at h ⊢
    rw [List.cons_append, lineFrom]
    · exact ih (getLast?_of_cons hx hcs) h
    · exact fun rest heq => absurd heq hc
    · exact hc

/-- All offsets may be counted from somewhere else. -/
theorem lineFrom_shift (k index start offset : Nat) (cs : List Char) :
    lineFrom (index + k) (start + k) (offset + k) cs =
      (lineFrom index start offset cs).shift k := by
  have hends (start stop : Nat) : ⟨start + k, stop + k - (start + k)⟩ =
      Span.shift k ⟨start, stop - start⟩ := by
    rw [Nat.add_sub_add_right]
    rfl
  have hstart (b : Bool) (start stop : Nat) :
      (if b = true then start + k else stop + k) = (if b = true then start else stop) + k := by
    split <;> rfl
  fun_induction lineFrom index start offset cs with
  | case1 start offset => exact hends start offset
  | case2 start offset cs hless ih =>
    rw [lineFrom, if_pos (Nat.add_lt_add_right hless k), Nat.add_right_comm, hstart]
    exact ih
  | case3 start offset cs hless =>
    rw [lineFrom, if_neg fun h => hless (Nat.lt_of_add_lt_add_right h), Nat.add_right_comm]
    exact hends start (offset + 2)
  | case4 start offset cs hcarry hless ih =>
    rw [lineFrom, if_pos (Nat.add_lt_add_right hless k), Nat.add_right_comm, hstart]
    · exact ih
    · exact hcarry
  | case5 start offset cs hcarry hless =>
    rw [lineFrom, if_neg fun h => hless (Nat.lt_of_add_lt_add_right h), Nat.add_right_comm]
    · exact hends start (offset + 1)
    · exact hcarry
  | case6 start offset c cs hcarry hc ih =>
    rw [lineFrom, Nat.add_right_comm]
    · exact ih
    · exact hcarry
    · exact hc

/-! ### Places -/

/-- **What is cited of a place does not depend on the lines behind it.** -/
theorem Place.ofSpan_append (hx : x.getLast? = some '\n') (hy : BeginsLine y)
    (hs : s.index < byteLength x) : Place.ofSpan (x ++ y) s = Place.ofSpan x s := by
  have haround : s.surroundingLine (x ++ y) = s.surroundingLine x :=
    lineFrom_append hx hy (by rwa [Nat.zero_add])
  obtain ⟨front, behind, hsplit, hindex, hsize⟩ := wholeIn_surroundingLine s x
  have hlength : byteLength x = byteLength front + byteLength behind := by
    rw [hsplit, byteLength_append]
  have hdrop (rest : List Char) : dropBytes (byteLength front) (front ++ rest) = rest := by
    rw [← Nat.add_zero (byteLength front), dropBytes_append, dropBytes_zero]
  unfold Place.ofSpan Span.fragment
  dsimp only
  rw [haround]
  generalize s.surroundingLine x = around at hindex hsize
  have hinLine : s.index - byteLength front ≤ byteLength behind := by omega
  rw [hindex, takeBytes_append (by omega), hsplit, List.append_assoc, hdrop, hdrop,
    takeBytes_append hinLine, takeBytes_append hsize]

/-- **What is cited of a place does not depend on the lines in front of it**, apart from their
number. -/
theorem Place.ofSpan_shift (hx : x.getLast? = some '\n') (hy : BeginsLine y) (hne : y ≠ [])
    (s : Span) :
    (Place.ofSpan (x ++ y) (s.shift (byteLength x))).column = (Place.ofSpan y s).column ∧
      (Place.ofSpan (x ++ y) (s.shift (byteLength x))).lineText = (Place.ofSpan y s).lineText := by
  have haround : (s.shift (byteLength x)).surroundingLine (x ++ y) =
      (s.surroundingLine y).shift (byteLength x) := by
    have hbehind : lineFrom (s.index + byteLength x) 0 0 (x ++ y) = _ :=
      lineFrom_behind hx hy hne (by omega)
    exact hbehind.trans (lineFrom_shift (byteLength x) s.index 0 0 y)
  have hdrop (n : Nat) : dropBytes (n + byteLength x) (x ++ y) = dropBytes n y := by
    rw [Nat.add_comm, dropBytes_append]
  have hcolumn (around : Span) :
      (s.shift (byteLength x)).index - (around.shift (byteLength x)).index =
      s.index - around.index :=
    Nat.add_sub_add_right _ _ _
  unfold Place.ofSpan Span.fragment
  dsimp only
  rw [haround, hcolumn]
  dsimp only [Span.shift]
  rw [hdrop]
  exact ⟨rfl, rfl⟩

end JackToolchain.Hack
