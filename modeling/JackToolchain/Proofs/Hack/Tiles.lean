import JackToolchain.Proofs.Hack.ErrorPlaces
import JackToolchain.Proofs.Hack.Scanner

/-!
# Tiles of a source

Each token of an assembly source makes up a *tile* with the gap in front of it.  The first tile
begins where the source does, each other one where the token of the one in front of it ends, and the
last one ends where the source does.  So nothing is left out and nothing is read twice.

That symbols and numbers are the longest runs of their characters concerns both sides of them.  What
follows is settled by the token itself.  What stands in front is not: it may be part of another
token.  Between the characters in front of a place and those behind it there is always a boundary
(`Apart`), and reading a gap or a token keeps it.

A scanner that goes through the source yields the tokens of the tiles, and after each of them it
stands where the token ends (`tokens_tile`).
-/

namespace JackToolchain.Hack

variable {text front gap rest cs : List Char} {c : Char} {kind : TokenKind} {offset size : Nat}
  {source : String} {t : Token} {ts done left : List Token}

/-! ### Runs of characters -/

/-- A text between others is a longest run: its characters are of the class `p`, the next one is
not, and the one in front is not of the class `q`. -/
structure LongestRun (q p : Char → Bool) (front text rest : List Char) : Prop where
  ne_nil : text ≠ []
  all : ∀ c ∈ text, p c = true
  stop : ∀ c ∈ rest.head?, p c = false
  start : ∀ c ∈ front.getLast?, q c = false

/-- A boundary: no number goes on behind it, nor does a symbol.  A symbol may follow a digit, but
then the digit is the end of a number. -/
def Apart (front cs : List Char) : Prop :=
  ∀ d ∈ front.getLast?, ∀ c ∈ cs.head?, (isSymbolPart d = true → c.isDigit = false) ∧
    (isSymbolStart d = true → isSymbolPart c = false)

theorem Apart.of_nil (cs : List Char) : Apart [] cs := nofun

/-- What stands further in front does not matter. -/
theorem Apart.append (h : Apart text cs) (hne : text ≠ []) (front : List Char) :
    Apart (front ++ text) cs := by
  intro d hd
  rw [List.getLast?_append_of_ne_nil front hne] at hd
  exact h d hd

theorem apart_of_not_isSymbolPart (h : ∀ d ∈ front.getLast?, isSymbolPart d = false) :
    Apart front cs := by
  intro d hd c _
  have hpart : ¬isSymbolPart d = true := Bool.eq_false_iff.mp (h d hd)
  exact ⟨fun hd' => absurd hd' hpart, fun hd' => absurd (isSymbolPart_of_isSymbolStart hd') hpart⟩

theorem apart_of_head (h : ∀ c ∈ cs.head?, isSymbolPart c = false) : Apart front cs := by
  intro d _ c hc
  exact ⟨fun _ => (Bool.or_eq_false_iff.mp (h c hc)).2, fun _ => h c hc⟩

/-- **Reading a gap** does not move a boundary into a symbol or a number. -/
theorem Apart.append_gap (h : Apart front (gap ++ cs)) (hgap : Gap cs gap) :
    Apart (front ++ gap) cs := by
  by_cases hne : gap = []
  · subst hne
    rw [List.append_nil]
    exact h
  · cases hgap with
    | blanks hblanks =>
      apply Apart.append _ hne
      exact apart_of_not_isSymbolPart fun d hd =>
        not_isSymbolPart_of_isBlank (hblanks d (List.mem_of_mem_getLast? hd))
    | comment _ _ hend =>
      -- A comment may end with a letter, but then the line ends, too.
      apply apart_of_head
      intro c hc
      rw [Bool.eq_false_iff]
      intro hpart
      exact absurd (hend c hc) (Bool.eq_false_iff.mp (not_newline_of_isSymbolPart hpart))

/-- **Reading a token** leads to a boundary. -/
theorem Spells.apart (h : Spells rest text kind) : Apart text rest := by
  cases h with
  | char hc _ =>
    apply apart_of_not_isSymbolPart
    rintro _ ⟨⟩
    exact (of_ofChar? hc).2.1
  | crlf => exact apart_of_not_isSymbolPart (by decide)
  | symbol _ _ hstop => exact apart_of_head hstop
  | @number c cs hc hcs hstop =>
    intro d hd e he
    have hdigits : ∀ d ∈ c :: cs, d.isDigit = true := List.forall_mem_cons.mpr ⟨hc, hcs⟩
    have hdigit : d.isDigit = true := hdigits d (List.mem_of_mem_getLast? hd)
    refine ⟨fun _ => hstop e he, fun hstart => ?_⟩
    rw [isSymbolStart_of_isDigit hdigit] at hstart
    exact absurd hstart Bool.false_ne_true
  | unknown _ hpart _ _ =>
    apply apart_of_not_isSymbolPart
    rintro _ ⟨⟩
    exact hpart

/-- Symbols and numbers are no single characters. -/
theorem ofChar?_ne_run (h : TokenKind.ofChar? c = some kind) : kind ≠ .symbol ∧ kind ≠ .number := by
  unfold TokenKind.ofChar? at h
  split at h <;> first | (cases h; done) | (cases h; decide)

theorem Spells.symbol_run (h : Spells rest text .symbol) (hapart : Apart front (text ++ rest)) :
    (∀ c ∈ text.head?, isSymbolStart c = true) ∧
      LongestRun isSymbolStart isSymbolPart front text rest := by
  cases h with
  | char hc _ => exact absurd rfl (ofChar?_ne_run hc).1
  | @symbol c cs hc hcs hstop =>
    have hpart := isSymbolPart_of_isSymbolStart hc
    refine ⟨fun d hd => ?_, List.cons_ne_nil _ _, List.forall_mem_cons.mpr ⟨hpart, hcs⟩, hstop,
      fun d hd => ?_⟩
    · cases hd
      exact hc
    · rw [Bool.eq_false_iff]
      intro hd'
      have hnot : isSymbolPart c = false := (hapart d hd c rfl).2 hd'
      rw [hpart] at hnot
      cases hnot

theorem Spells.number_run (h : Spells rest text .number) (hapart : Apart front (text ++ rest)) :
    LongestRun isSymbolPart Char.isDigit front text rest := by
  cases h with
  | char hc _ => exact absurd rfl (ofChar?_ne_run hc).2
  | @number c cs hc hcs hstop =>
    refine ⟨List.cons_ne_nil _ _, List.forall_mem_cons.mpr ⟨hc, hcs⟩, hstop, fun d hd => ?_⟩
    rw [Bool.eq_false_iff]
    intro hd'
    have hnot : c.isDigit = false := (hapart d hd c rfl).1 hd'
    rw [hc] at hnot
    cases hnot

/-! ### Tiles -/

/-- A tile of a text that has been read up to `front`: a gap, and a token between the gap and
`rest`. -/
structure Tile (text front gap rest : List Char) (t : Token) : Prop where
  standsIn : t.StandsIn text (front ++ gap) rest
  isGap : Gap (t.text.toList ++ rest) gap
  symbol : t.kind = .symbol → (∀ c ∈ t.text.toList.head?, isSymbolStart c = true) ∧
    LongestRun isSymbolStart isSymbolPart (front ++ gap) t.text.toList rest
  number : t.kind = .number → LongestRun isSymbolPart Char.isDigit (front ++ gap) t.text.toList rest

/-- A token behind a gap. -/
theorem tile_of_spells (hoffset : offset = byteLength front)
    (hapart : Apart front (gap ++ (text ++ rest))) (hgap : Gap (text ++ rest) gap)
    (h : Spells rest text kind) :
    Tile (front ++ (gap ++ (text ++ rest))) front gap rest
      (tokenAt (offset + byteLength gap) kind text) := by
  have htext := toList_text_tokenAt (offset + byteLength gap) kind text
  have hboundary : Apart (front ++ gap) (text ++ rest) := hapart.append_gap hgap
  refine ⟨standsIn_tokenAt gap hoffset (.inl h), ?_, fun hkind => ?_, fun hkind => ?_⟩
  · rw [htext]
    exact hgap
  · rw [htext]
    obtain rfl : kind = .symbol := hkind
    exact h.symbol_run hboundary
  · rw [htext]
    obtain rfl : kind = .number := hkind
    exact h.number_run hboundary

/-- The end of a text, behind a gap. -/
theorem tile_of_end (hoffset : offset = byteLength front) (hgap : Gap [] gap) :
    Tile (front ++ gap) front gap [] (tokenAt (offset + byteLength gap) .endOfFile []) := by
  have hstands := standsIn_tokenAt gap hoffset (.inr ⟨rfl, rfl, rfl⟩)
  rw [List.append_nil, List.append_nil] at hstands
  refine ⟨hstands, ?_, nofun, nofun⟩
  rw [toList_text_tokenAt]
  exact hgap

/-- Where the last one of some tokens ends, or the place in front of them if there is none. -/
def stopFrom (offset : Nat) : List Token → Nat
  | [] => offset
  | t :: ts => stopFrom t.span.stop ts

/-- **Each token of a tiling is in a tile** that begins where the token in front ends. -/
theorem Tiling.tile (h : Tiling offset cs ts) (hoffset : offset = byteLength front)
    (hapart : Apart front cs) (hts : ts = done ++ t :: left) :
    ∃ before gap rest, byteLength before = stopFrom offset done ∧
      Tile (front ++ cs) before gap rest t := by
  have hsingle {u t : Token} {done left : List Token} (hu : [u] = done ++ t :: left) : done = [] ∧
      u = t := by
    obtain ⟨rfl, hcons⟩ | ⟨-, hcons⟩ := List.singleton_eq_append_iff.mp hu
    · exact ⟨rfl, (List.cons.inj hcons).1.symm⟩
    · exact absurd hcons (List.cons_ne_nil _ _)
  induction h generalizing front done with
  | stop hgap =>
    obtain ⟨rfl, rfl⟩ := hsingle hts
    exact ⟨front, _, [], hoffset.symm, tile_of_end hoffset hgap⟩
  | @last offset gap text hgap hspells =>
    obtain ⟨rfl, rfl⟩ := hsingle hts
    rw [← List.append_nil text] at hgap hapart
    have htile := tile_of_spells hoffset hapart hgap hspells
    rw [List.append_nil text] at htile
    exact ⟨front, gap, [], hoffset.symm, htile⟩
  | @token offset gap text rest kind ts hgap hspells _ _ ih =>
    cases done with
    | nil =>
      obtain ⟨rfl, -⟩ := List.cons.inj hts
      exact ⟨front, gap, rest, hoffset.symm, tile_of_spells hoffset hapart hgap hspells⟩
    | cons u done =>
      obtain ⟨rfl, hts'⟩ := List.cons.inj hts
      obtain ⟨hoffset', htext⟩ := read_on hoffset gap text rest
      rw [htext]
      refine ih hoffset' ?_ hts'
      rw [← List.append_assoc]
      exact hspells.apart.append hspells.ne_nil (front ++ gap)

/-! ### The order of the tokens -/

theorem Tiling.offset_le (h : Tiling offset cs ts) : ∀ t ∈ ts, offset ≤ t.span.index := by
  induction h with
  | stop hgap => exact List.forall_mem_singleton.mpr (Nat.le_add_right _ _)
  | last hgap hspells => exact List.forall_mem_singleton.mpr (Nat.le_add_right _ _)
  | @token offset gap text rest kind ts _ _ _ _ ih =>
    refine List.forall_mem_cons.mpr ⟨Nat.le_add_right _ _, fun t ht => ?_⟩
    have hle := ih t ht
    omega

/-- **The stretches of the tokens are in order.**  Only the last one may be empty. -/
theorem Tiling.pairwise (h : Tiling offset cs ts) :
    ts.Pairwise fun t u => t.span.index < t.span.stop ∧ t.span.stop ≤ u.span.index := by
  induction h with
  | stop hgap => exact List.pairwise_singleton _ _
  | last hgap hspells => exact List.pairwise_singleton _ _
  | @token offset gap text rest kind ts _ hspells _ htail ih =>
    refine List.pairwise_cons.mpr ⟨fun u hu => ⟨?_, htail.offset_le u hu⟩, ih⟩
    exact Nat.lt_add_of_pos_right (byteLength_pos hspells.ne_nil)

/-- **The last token** is an end of file and ends where the text does. -/
theorem Tiling.exists_last (h : Tiling offset cs ts) :
    ∃ done last, ts = done ++ [last] ∧ last.kind = .endOfFile ∧
      last.span.stop = offset + byteLength cs := by
  induction h with
  | stop hgap => exact ⟨[], _, rfl, rfl, rfl⟩
  | last hgap hspells =>
    refine ⟨[], _, rfl, rfl, ?_⟩
    rw [byteLength_append, ← Nat.add_assoc]
    rfl
  | @token offset gap text rest kind ts _ _ _ _ ih =>
    obtain ⟨done, last, rfl, hkind, hstop⟩ := ih
    refine ⟨_ :: done, last, rfl, hkind, ?_⟩
    rw [hstop, byteLength_append, byteLength_append, Nat.add_assoc, Nat.add_assoc]

/-! ### Carriage returns in front of line feeds -/

/-- A character behind a beginning of two texts in a row is in one of the two. -/
theorem of_append_eq {xs ys : List Char} (h : xs ++ ys = front ++ c :: cs) :
    (∃ behind, front = xs ++ behind ∧ ys = behind ++ c :: cs) ∨
      ∃ behind, xs = front ++ c :: behind ∧ cs = behind ++ ys := by
  rcases List.append_eq_append_iff.mp h with ⟨behind, hfront, hys⟩ | ⟨_ | ⟨d, behind⟩, hxs, hcs⟩
  · exact .inl ⟨behind, hfront, hys⟩
  · refine .inl ⟨[], ?_, hcs.symm⟩
    rw [hxs, List.append_nil, List.append_nil]
  · obtain ⟨rfl, rfl⟩ := List.cons.inj hcs
    exact .inr ⟨behind, hxs, rfl⟩

theorem Gap.return_notMem (h : Gap rest gap) : '\r' ∉ gap :=
  fun hmem => absurd (h.not_newline _ hmem) (by decide)

/-- A carriage return in a token, with a line feed behind it, is the beginning of the token, and the
line feed is the rest of it. -/
theorem Spells.eq_crlf {behind : List Char} (h : Spells rest text kind)
    (htext : text = front ++ '\r' :: behind) (hfeed : '\n' :: cs = behind ++ rest) :
    front = [] ∧ kind = .newline ∧ text = ['\r', '\n'] := by
  have hmem : '\r' ∈ text := by
    rw [htext]
    exact List.mem_append_cons_self
  obtain rfl : kind = .newline := by
    by_contra hkind
    exact absurd (h.not_newline hkind _ hmem) (by decide)
  cases h with
  | char hc hreturn =>
    obtain ⟨rfl, hcons⟩ | ⟨-, hcons⟩ := List.singleton_eq_append_iff.mp htext
    · obtain ⟨rfl, rfl⟩ := List.cons.inj hcons
      refine absurd rfl (hreturn rfl '\n' ?_)
      rw [← List.nil_append rest, ← hfeed]
      rfl
    · exact absurd hcons (List.cons_ne_nil _ _)
  | crlf =>
    match front with
    | [] => exact ⟨rfl, rfl, rfl⟩
    | [_] => cases htext
    | _ :: _ :: _ => simp at htext

/-- **A carriage return in front of a line feed** makes up one token with it. -/
theorem Tiling.crlf_mem (h : Tiling offset cs ts) (hcs : cs = front ++ '\r' :: '\n' :: rest) :
    tokenAt (offset + byteLength front) .newline ['\r', '\n'] ∈ ts := by
  have hmem : '\r' ∈ cs := by
    rw [hcs]
    exact List.mem_append_cons_self
  induction h generalizing front with
  | stop hgap => exact absurd hmem hgap.return_notMem
  | last hgap hspells =>
    rw [hspells.eq_nul, List.mem_append] at hmem
    rcases hmem with hmem | hmem
    · exact absurd hmem hgap.return_notMem
    · exact absurd hmem (by decide)
  | @token offset gap text behind kind ts hgap hspells _ _ ih =>
    rcases of_append_eq hcs with ⟨front, rfl, htext⟩ | ⟨_, hreturn, -⟩
    · rcases of_append_eq htext with ⟨front, rfl, hbehind⟩ | ⟨_, hreturn, hfeed⟩
      · have hreturn : '\r' ∈ behind := by
          rw [hbehind]
          exact List.mem_append_cons_self
        refine List.mem_cons_of_mem _ ?_
        rw [byteLength_append, byteLength_append, ← Nat.add_assoc, ← Nat.add_assoc]
        exact ih hbehind hreturn
      · obtain ⟨rfl, rfl, rfl⟩ := hspells.eq_crlf hreturn hfeed
        rw [List.append_nil]
        exact List.mem_cons_self
    · refine absurd ?_ hgap.return_notMem
      rw [hreturn]
      exact List.mem_append_cons_self

/-! ### The tokens of a source -/

/-- A token stands inside its source. -/
theorem stop_le_of_mem_tokens (h : t ∈ tokens source) : t.span.stop ≤ source.utf8ByteSize := by
  obtain ⟨front, rest, ht⟩ := exists_standsIn source t h
  have hlength := congrArg byteLength ht.text_eq
  rw [byteLength_append, byteLength_append, byteLength_toList, ← ht.index_eq, ← ht.size_eq]
    at hlength
  unfold Span.stop
  omega

/-- **The tokens of a source tile it**, if its size fits into 32 bits.  A scanner yields them and
ends, and behind each of them it stands where the token ends.  The last token is an end of file that
ends where the source does.  The stretches of the tokens are disjoint and in order.  Each token has
a tile that begins where the token in front of it ends, and a carriage return in front of a line
feed is one token with it, wherever they are. -/
theorem tokens_tile (hsize : source.utf8ByteSize < UInt32.size) :
    (∃ run, (Scanner.ofSource source).Yields run ∧
      (run.map fun e => (e.1.kind, e.1.extent.span)) =
        ((tokens source).map fun t => (t.kind, t.span)) ∧
      ∀ e ∈ run, e.2.offset = e.1.extent.stop) ∧
    (∃ done last, tokens source = done ++ [last] ∧ last.kind = .endOfFile ∧
      last.span.stop = source.utf8ByteSize) ∧
    ((tokens source).Pairwise fun t u =>
      t.span.index < t.span.stop ∧ t.span.stop ≤ u.span.index) ∧
    (∀ done t left, tokens source = done ++ t :: left →
      ∃ front gap rest, byteLength front = stopFrom 0 done ∧
        Tile source.toList front gap rest t) ∧
    ∀ front rest, source.toList = front ++ '\r' :: '\n' :: rest →
      tokenAt (byteLength front) .newline ['\r', '\n'] ∈ tokens source := by
  have htiling := tiling_tokens source
  have hlength : 0 + byteLength source.toList = source.utf8ByteSize := by
    rw [Nat.zero_add, byteLength_toList]
  have hbegin : 0 = byteLength [] := rfl
  refine ⟨?_, ?_, htiling.pairwise, ?_, ?_⟩
  · obtain ⟨run, hrun, hmap, hoffsets⟩ := Scanner.yields_ofCursor
      (Cursor.yields_tokens source) ⟨hlength, hsize⟩
    refine ⟨run, hrun, ?_, hoffsets⟩
    have hspans : ∀ t ∈ tokens source, (t.mark.kind, t.mark.extent.span) = (t.kind, t.span) :=
      fun t ht => congrArg (t.kind, ·)
        (Span.span_extent (Nat.lt_of_le_of_lt (stop_le_of_mem_tokens ht) hsize))
    calc (run.map fun e => (e.1.kind, e.1.extent.span))
        = (run.map Prod.fst).map fun m => (m.kind, m.extent.span) := by rw [List.map_map]; rfl
      _ = (tokens source).map fun t => (t.mark.kind, t.mark.extent.span) := by
          rw [hmap, List.map_map]; rfl
      _ = (tokens source).map fun t => (t.kind, t.span) := List.map_congr_left hspans
  · rw [← hlength]
    exact htiling.exists_last
  · intro done t left htokens
    exact htiling.tile hbegin (.of_nil _) htokens
  · intro front rest hcrlf
    rw [← Nat.zero_add (byteLength front)]
    exact htiling.crlf_mem hcrlf

/-- A NUL character in the source is an end of file that does not end the tokens, and in a comment
it is nothing. -/
theorem tokens_tile_nul :
    "1A\r\n\x00//\x00".utf8ByteSize < UInt32.size ∧
      ∃ run, (Scanner.ofSource "1A\r\n\x00//\x00").Yields run ∧
        (run.map fun e => (e.1.kind, e.1.extent.span)) =
          [(.number, ⟨0, 1⟩), (.symbol, ⟨1, 1⟩), (.newline, ⟨2, 2⟩), (.endOfFile, ⟨4, 1⟩),
            (.endOfFile, ⟨8, 0⟩)] := by
  have hsize : "1A\r\n\x00//\x00".utf8ByteSize < UInt32.size := by decide
  obtain ⟨⟨run, hrun, hmap, -⟩, -⟩ := tokens_tile hsize
  have htokens : ((tokens "1A\r\n\x00//\x00").map fun t => (t.kind, t.span)) =
      [(.number, ⟨0, 1⟩), (.symbol, ⟨1, 1⟩), (.newline, ⟨2, 2⟩), (.endOfFile, ⟨4, 1⟩),
        (.endOfFile, ⟨8, 0⟩)] := by decide +kernel
  exact ⟨hsize, run, hrun, hmap.trans htokens⟩

end JackToolchain.Hack
