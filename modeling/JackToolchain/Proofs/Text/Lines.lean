import JackToolchain.Text.Lines
import Mathlib.Data.List.Chain

/-!
# Lines, comments and words of a text

A text made of lines with line feeds between them has these lines again (`lines_cons_feed`), apart
from a carriage return at the end of a line, which is not seen by anybody who reads the words of a
line (`words_beforeComment_line`).  What stands in front of the first two slashes of a line is found
whatever stands behind them, and the words of a line do not depend on the blanks around them.
-/

namespace JackToolchain.Text

variable {c : Char} {line word gap : List Char} {ws : List (List Char)}

/-! ### Comments -/

/-- Two slashes begin a comment; in a text without a comment they nowhere stand in a row. -/
def NoComment (line : List Char) : Prop := ¬['/', '/'] <:+: line

theorem noComment_iff_isChain : NoComment line ↔ line.IsChain fun c d => ¬(c = '/' ∧ d = '/') := by
  unfold NoComment
  induction line with
  | nil => simp
  | cons c line ih =>
    rw [List.infix_cons_iff, not_or, ih, List.isChain_cons]
    refine and_congr_left fun _ => ?_
    cases line with
    | nil => simp
    | cons d line => simp [List.cons_prefix_cons, eq_comm]

/-- Texts without comments may stand in a row, unless two slashes meet. -/
theorem noComment_append {line' : List Char} :
    NoComment (line ++ line') ↔ NoComment line ∧ NoComment line' ∧
      ¬(line.getLast? = some '/' ∧ line'.head? = some '/') := by
  rw [noComment_iff_isChain, noComment_iff_isChain, noComment_iff_isChain, List.isChain_append]
  refine and_congr_right fun _ => and_congr_right fun _ =>
    ⟨fun h hmeet => ?_, fun h c hc d hd hmeet => ?_⟩
  · exact h '/' hmeet.1 '/' hmeet.2 ⟨rfl, rfl⟩
  · obtain ⟨rfl, rfl⟩ := hmeet
    exact h ⟨hc, hd⟩

theorem NoComment.tail (h : NoComment (c :: line)) : NoComment line := fun hslashes =>
  h (List.infix_cons hslashes)

theorem noComment_of_notMem (h : '/' ∉ line) : NoComment line :=
  fun hslashes => h (hslashes.subset List.mem_cons_self)

theorem noComment_singleton (c : Char) : NoComment [c] :=
  fun hslashes => absurd hslashes.length_le (by simp)

/-- Without a comment, the whole line stands in front of it. -/
theorem beforeComment_of_noComment (h : NoComment line) : beforeComment line = line := by
  have hfrom (read : List Char) : beforeCommentFrom read line = read.reverse ++ line := by
    induction line generalizing read with
    | nil => exact (List.append_nil _).symm
    | cons c line ih =>
      have hline : NoComment line := NoComment.tail h
      rw [beforeCommentFrom, ih hline, List.reverse_cons, List.append_assoc]
      · rfl
      · rintro rest rfl rfl
        exact h ⟨[], rest, rfl⟩
  exact hfrom []

/-- What stands in front of a comment does not depend on the comment. -/
theorem beforeComment_append (h : NoComment (line ++ ['/'])) (comment : List Char) :
    beforeComment (line ++ '/' :: '/' :: comment) = line := by
  have hfrom (read : List Char) : beforeCommentFrom read (line ++ '/' :: '/' :: comment) =
      read.reverse ++ line := by
    induction line generalizing read with
    | nil => exact (List.append_nil _).symm
    | cons c line ih =>
      have hline : NoComment (line ++ ['/']) := NoComment.tail h
      rw [List.cons_append, beforeCommentFrom, ih hline, List.reverse_cons, List.append_assoc]
      · rfl
      · rintro rest rfl heq
        -- The slash behind this one is the first one of the comment or belongs to the line.
        cases line with
        | nil => exact h ⟨[], [], rfl⟩
        | cons d line =>
          cases heq
          exact h ⟨[], line ++ ['/'], rfl⟩
  exact hfrom []

/-- A last character that is no slash is part of the comment, or stands in front of none. -/
theorem beforeComment_concat (hc : c ≠ '/') :
    beforeComment (line ++ [c]) = beforeComment line ∨
      beforeComment (line ++ [c]) = beforeComment line ++ [c] := by
  have hfrom (read : List Char) :
      beforeCommentFrom read (line ++ [c]) = beforeCommentFrom read line ∨
      beforeCommentFrom read (line ++ [c]) = beforeCommentFrom read line ++ [c] := by
    fun_induction beforeCommentFrom read line with
    | case1 read =>
      refine Or.inr ?_
      rw [List.nil_append, beforeCommentFrom, beforeCommentFrom, List.reverse_cons]
      rintro rest rfl
      exact absurd rfl hc
    | case2 read rest => exact Or.inl rfl
    | case3 read d line hcomment ih =>
      rw [List.cons_append, beforeCommentFrom]
      · exact ih
      · rintro rest rfl heq
        cases line with
        | nil =>
          cases heq
          exact hc rfl
        | cons e line =>
          cases heq
          exact hcomment line rfl rfl
  exact hfrom []

/-! ### Words -/

/-- A run of characters that are not blank. -/
structure IsRun (word : List Char) : Prop where
  ne_nil : word ≠ []
  not_blank : ∀ c ∈ word, isBlank c = false

/-- Nothing but blanks. -/
def AllBlank (gap : List Char) : Prop := ∀ c ∈ gap, isBlank c = true

instance (gap : List Char) : Decidable (AllBlank gap) :=
  inferInstanceAs (Decidable (∀ c ∈ gap, isBlank c = true))

theorem not_slash_of_isBlank (h : isBlank c = true) : c ≠ '/' := by
  rintro rfl
  exact absurd h (by decide)

theorem noComment_of_allBlank (h : AllBlank gap) : NoComment gap :=
  noComment_of_notMem fun hmem => not_slash_of_isBlank (h _ hmem) rfl

theorem wordsFrom_append (h : ∀ c ∈ word, isBlank c = false) (read : List Char)
    (done : List (List Char)) (rest : List Char) :
    wordsFrom read done (word ++ rest) = wordsFrom (word.reverse ++ read) done rest := by
  induction word generalizing read with
  | nil => rfl
  | cons c word ih =>
    obtain ⟨hc, hword⟩ := List.forall_mem_cons.mp h
    rw [List.cons_append, wordsFrom, if_neg (Bool.eq_false_iff.mp hc), ih hword, List.reverse_cons,
      List.append_assoc]
    rfl

/-- Blanks in front of a word are skipped. -/
theorem wordsFrom_gap (h : AllBlank gap) (done : List (List Char)) (rest : List Char) :
    wordsFrom [] done (gap ++ rest) = wordsFrom [] done rest := by
  induction gap with
  | nil => rfl
  | cons c gap ih =>
    obtain ⟨hc, hgap⟩ := List.forall_mem_cons.mp h
    rw [List.cons_append, wordsFrom, if_pos hc]
    exact ih hgap

theorem isEmpty_reverse (h : word ≠ []) : word.reverse.isEmpty = false := by
  simpa using h

/-- Blanks behind a word end it, and so does the end of the line. -/
theorem wordsFrom_of_allBlank (hword : word ≠ []) (hgap : AllBlank gap) (done : List (List Char)) :
    wordsFrom word.reverse done gap = (word :: done).reverse := by
  cases gap with
  | nil => rw [wordsFrom, isEmpty_reverse hword, if_neg Bool.false_ne_true, List.reverse_reverse]
  | cons c gap =>
    obtain ⟨hc, hgap⟩ := List.forall_mem_cons.mp hgap
    have hskip := wordsFrom_gap hgap (word :: done) []
    rw [List.append_nil] at hskip
    rw [wordsFrom, if_pos hc, isEmpty_reverse hword, if_neg Bool.false_ne_true,
      List.reverse_reverse, hskip]
    rfl

/-- The text of words with a space between them. -/
def spaced : List (List Char) → List Char
  | [] => []
  | [word] => word
  | word :: rest => word ++ ' ' :: spaced rest

/-- A line has the words that it has been made of, whatever blanks stand around them. -/
theorem words_spaced {indent : List Char} (hindent : AllBlank indent) (h : ∀ word ∈ ws, IsRun word)
    (hgap : AllBlank gap) : words (indent ++ (spaced ws ++ gap)) = ws := by
  -- A space ends each word but the last, which the blanks at the end of the line end.
  have hfrom (done : List (List Char)) : wordsFrom [] done (spaced ws ++ gap) =
      done.reverse ++ ws := by
    induction ws generalizing done with
    | nil =>
      have hskip := wordsFrom_gap hgap done []
      rw [List.append_nil] at hskip
      rw [spaced, List.nil_append, hskip, List.append_nil]
      rfl
    | cons word rest ih =>
      obtain ⟨⟨hne, hpart⟩, hrest⟩ := List.forall_mem_cons.mp h
      cases rest with
      | nil =>
        rw [spaced, wordsFrom_append hpart, List.append_nil, wordsFrom_of_allBlank hne hgap,
          List.reverse_cons]
      | cons word' rest =>
        have hblank : isBlank ' ' = true := by decide
        rw [spaced, List.append_assoc, wordsFrom_append hpart, List.append_nil,
          List.cons_append, wordsFrom, if_pos hblank, isEmpty_reverse hne,
          if_neg Bool.false_ne_true, List.reverse_reverse, ih hrest, List.reverse_cons,
          List.append_assoc]
        · rfl
        · nofun
  unfold words
  rw [wordsFrom_gap hindent]
  exact hfrom []

theorem words_of_allBlank (h : AllBlank gap) : words gap = [] := by
  have hgap := wordsFrom_gap h [] []
  rwa [List.append_nil] at hgap

/-- A last blank is in no word. -/
theorem words_concat (hc : isBlank c = true) : words (line ++ [c]) = words line := by
  have hfrom (read : List Char) (done : List (List Char)) :
      wordsFrom read done (line ++ [c]) = wordsFrom read done line := by
    fun_induction wordsFrom read done line with
    | case1 read done =>
      rw [List.nil_append, wordsFrom, if_pos hc]
      rfl
    | case2 read done d line hd ih =>
      rw [List.cons_append, wordsFrom, if_pos hd]
      exact ih
    | case3 read done d line hd ih =>
      rw [List.cons_append, wordsFrom, if_neg hd]
      exact ih
  exact hfrom [] []

/-- A word that has been read is a run, if there is one. -/
theorem isRun_of_mem_finished {read : List Char} {done : List (List Char)}
    (hread : ∀ c ∈ read, isBlank c = false) (hdone : ∀ word ∈ done, IsRun word) :
    ∀ word ∈ if read.isEmpty then done else read.reverse :: done, IsRun word := by
  split
  · exact hdone
  · next hne =>
    have hrun : IsRun read.reverse :=
      ⟨by simpa using hne, fun c hc => hread c (List.mem_reverse.mp hc)⟩
    exact List.forall_mem_cons.mpr ⟨hrun, hdone⟩

theorem isRun_of_mem_wordsFrom {read : List Char} {done : List (List Char)}
    (hread : ∀ c ∈ read, isBlank c = false) (hdone : ∀ word ∈ done, IsRun word) :
    ∀ word ∈ wordsFrom read done line, IsRun word := by
  fun_induction wordsFrom read done line with
  | case1 read done =>
    intro word hword
    exact isRun_of_mem_finished hread hdone word (List.mem_reverse.mp hword)
  | case2 read done c line hc ih =>
    exact ih (fun c hc => absurd hc List.not_mem_nil) (isRun_of_mem_finished hread hdone)
  | case3 read done c line hc ih =>
    exact ih (List.forall_mem_cons.mpr ⟨Bool.eq_false_iff.mpr hc, hread⟩) hdone

/-- The words of a text are runs. -/
theorem isRun_of_mem_words (h : word ∈ words line) : IsRun word :=
  isRun_of_mem_wordsFrom (fun _ hc => absurd hc List.not_mem_nil)
    (fun _ hword => absurd hword List.not_mem_nil) word h

/-! ### Lines -/

theorem linesFrom_append (h : '\n' ∉ line) (read : List Char) (done : List (List Char))
    (rest : List Char) :
    linesFrom read done (line ++ rest) = linesFrom (line.reverse ++ read) done rest := by
  induction line generalizing read with
  | nil => rfl
  | cons c line ih =>
    have hc : c ≠ '\n' := fun heq => h (heq ▸ List.mem_cons_self)
    have hline : '\n' ∉ line := fun hmem => h (List.mem_cons_of_mem c hmem)
    rw [List.cons_append, linesFrom, if_neg hc, ih hline, List.reverse_cons, List.append_assoc]
    rfl

theorem linesFrom_eq (read : List Char) (done : List (List Char)) (text : List Char) :
    linesFrom read done text = done.reverse ++ linesFrom read [] text := by
  induction text generalizing read done with
  | nil =>
    unfold linesFrom
    split
    · exact (List.append_nil _).symm
    · rw [List.reverse_cons]
      rfl
  | cons c text ih =>
    unfold linesFrom
    split
    · rw [ih [] (_ :: done), ih [] [_], List.reverse_cons, List.append_assoc]
      rfl
    · exact ih _ _

/-- A line without the carriage return at its end. -/
def withoutReturn (line : List Char) : List Char := (dropReturn line.reverse).reverse

/-- A line feed ends a line. -/
theorem lines_cons_feed (h : '\n' ∉ line) (text : List Char) :
    lines (line ++ '\n' :: text) = withoutReturn line :: lines text := by
  unfold lines
  rw [linesFrom_append h, List.append_nil, linesFrom, if_pos rfl, linesFrom_eq]
  rfl

theorem withoutReturn_of_getLast? (h : line.getLast? ≠ some '\r') : withoutReturn line = line := by
  unfold withoutReturn
  rw [← List.head?_reverse] at h
  cases hline : line.reverse with
  | nil => rw [List.reverse_eq_nil_iff.mp hline]; rfl
  | cons c rest =>
    rw [hline] at h
    have hc : c ≠ '\r' := fun heq => h (congrArg some heq)
    rw [dropReturn, ← hline, List.reverse_reverse]
    exact fun _ heq => hc (List.cons.inj heq).1

/-- Lines with a line feed behind each are the lines of their text. -/
theorem lines_flatMap_feed {ls : List (List Char)}
    (h : ∀ line ∈ ls, '\n' ∉ line ∧ line.getLast? ≠ some '\r') :
    lines (ls.flatMap (· ++ ['\n'])) = ls := by
  induction ls with
  | nil => rfl
  | cons line ls ih =>
    obtain ⟨⟨hfeed, hreturn⟩, hls⟩ := List.forall_mem_cons.mp h
    rw [List.flatMap_cons, List.append_assoc, List.singleton_append, lines_cons_feed hfeed, ih hls,
      withoutReturn_of_getLast? hreturn]

/-- What stands behind the last line feed is a line, unless it is empty. -/
theorem lines_of_notMem (h : '\n' ∉ line) : lines line = if line.isEmpty then [] else [line] := by
  have hline := linesFrom_append h [] [] []
  rw [List.append_nil, List.append_nil] at hline
  unfold lines
  rw [hline, linesFrom, List.isEmpty_reverse, List.reverse_reverse]
  split <;> rfl

/-- Whoever reads the words of a line does not see the carriage return at its end. -/
theorem words_beforeComment_withoutReturn (line : List Char) :
    words (beforeComment (withoutReturn line)) = words (beforeComment line) := by
  unfold withoutReturn
  cases hline : line.reverse with
  | nil =>
    rw [List.reverse_eq_nil_iff.mp hline]
    rfl
  | cons c rest =>
    have hconcat : line = rest.reverse ++ [c] := by
      rw [← List.reverse_reverse line, hline, List.reverse_cons]
    by_cases hc : c = '\r'
    · subst hc
      have hblank : isBlank '\r' = true := by decide
      rw [hconcat]
      have hcut : beforeComment (rest.reverse ++ ['\r']) = _ ∨ _ :=
        beforeComment_concat (not_slash_of_isBlank hblank)
      rcases hcut with heq | heq
      · rw [heq]
        rfl
      · rw [heq, words_concat hblank]
        rfl
    · have hdrop : dropReturn (c :: rest) = c :: rest := by
        unfold dropReturn
        split
        · next heq =>
          cases heq
          exact absurd rfl hc
        · rfl
      rw [hdrop, hconcat, List.reverse_cons]

end JackToolchain.Text
