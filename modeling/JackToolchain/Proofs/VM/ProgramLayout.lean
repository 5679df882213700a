import JackToolchain.Jack.Sink
import JackToolchain.Proofs.VM.ProgramText

/-!
# Programs are read however they are laid out

A line of a program has at most one command on it.  Blanks may stand around the command, and a
comment may stand at the end of the line; there may be lines without a command.  `LaidOut` says so
of the lines of a program, and which commands are on which of them.  A program is read from its
lines as these commands (`readFrom_of_laidOut`), in particular from the text that is written for it,
which has a line for each command.

A comment begins with two slashes, so one that stands right behind a name that ends with a slash
would begin too early.  Such a comment has to be set off by a blank (`SetOff`).
-/

namespace JackToolchain.VM

open Text

/-! ### Lines of a program -/

/-- What may stand behind the command of a line: blanks, and a comment behind them, or none. -/
inductive Ending : List Char → Prop where
  | blank {gap : List Char} : AllBlank gap → Ending gap
  | comment {gap : List Char} (comment : List Char) : AllBlank gap →
    Ending (gap ++ '/' :: '/' :: comment)

/-- No slash of a text meets a slash behind it. -/
def SetOff (text ending : List Char) : Prop := ¬(text.getLast? = some '/' ∧ ending.head? = some '/')

/-- The lines of a program, from the one with the given number on, have commands on them. -/
inductive LaidOut : Nat → List (List Char) → List SourceLine → Prop where
  | nil {number : Nat} : LaidOut number [] []
  /-- A line without a command. -/
  | skip {number : Nat} {line : List Char} {ls : List (List Char)} {program : List SourceLine} :
      Ending line → LaidOut (number + 1) ls program → LaidOut number (line :: ls) program
  /-- A line with a command. -/
  | command {number : Nat} {indent ending : List Char} {ls : List (List Char)}
      {program : List SourceLine} (c : Command) : AllBlank indent → Ending ending → SetOff c.text.toList ending →
      LaidOut (number + 1) ls program →
      LaidOut number ((indent ++ (c.text.toList ++ ending)) :: ls) (⟨number, c⟩ :: program)

section
variable {gap indent ending line : List Char} {c : Command}

theorem getLast?_ne_slash (h : AllBlank gap) : gap.getLast? ≠ some '/' :=
  fun hlast => not_slash_of_isBlank (h _ (List.mem_of_getLast? hlast)) rfl

/-- Blanks in front of a slash are in front of the comment that it begins. -/
theorem noComment_gap_slash (h : AllBlank gap) : NoComment (gap ++ ['/']) :=
  noComment_append.mpr ⟨noComment_of_allBlank h, noComment_singleton '/',
    fun hmeet => getLast?_ne_slash h hmeet.1⟩

/-- A line without a command has no words in front of its comment. -/
theorem words_beforeComment_ending (h : Ending ending) : words (beforeComment ending) = [] := by
  cases h with
  | blank hgap =>
    rw [beforeComment_of_noComment (noComment_of_allBlank hgap)]
    exact words_of_allBlank hgap
  | comment comment hgap =>
    rw [beforeComment_append (noComment_gap_slash hgap)]
    exact words_of_allBlank hgap

/-- In front of its comment, a line with a command has the words of the command. -/
theorem words_beforeComment_command (hindent : AllBlank indent) (hending : Ending ending)
    (hset : SetOff c.text.toList ending) (h : ∀ name ∈ c.names, IsName name.toList) :
    (words (beforeComment (indent ++ (c.text.toList ++ ending)))).map String.ofList = c.words := by
  have hnames : ∀ word ∈ c.words, IsName word.toList :=
    Command.forall_mem_words (fun _ hword => hword.isName) h
  have hruns : ∀ word ∈ c.words.map String.toList, IsRun word :=
    List.forall_mem_map.mpr fun word hword => (hnames word hword).toIsRun
  have htext : NoComment c.text.toList := by
    rw [c.toList_text]
    exact noComment_spaced (List.forall_mem_map.mpr fun word hword => (hnames word hword).noComment)
  have hline {behind : List Char} (hbehind : NoComment behind)
      (hset : SetOff c.text.toList behind) : NoComment (indent ++ (c.text.toList ++ behind)) :=
    noComment_append.mpr ⟨noComment_of_allBlank hindent,
      noComment_append.mpr ⟨htext, hbehind, hset⟩, fun hmeet => getLast?_ne_slash hindent hmeet.1⟩
  have hwords {gap : List Char} (hgap : AllBlank gap) :
      (words (indent ++ (c.text.toList ++ gap))).map String.ofList = c.words := by
    rw [c.toList_text, words_spaced hindent hruns hgap, List.map_map]
    simp
  cases hending with
  | blank hgap =>
    rw [beforeComment_of_noComment (hline (noComment_of_allBlank hgap) hset), hwords hgap]
  | @comment gap comment hgap =>
    have hfront : NoComment ((indent ++ (c.text.toList ++ gap)) ++ ['/']) := by
      rw [List.append_assoc, List.append_assoc]
      refine hline (noComment_gap_slash hgap) fun hmeet => hset ⟨hmeet.1, ?_⟩
      cases gap with
      | nil => rfl
      | cons d gap => exact hmeet.2
    have hassoc : indent ++ (c.text.toList ++ (gap ++ '/' :: '/' :: comment)) =
        (indent ++ (c.text.toList ++ gap)) ++ '/' :: '/' :: comment := by
      rw [List.append_assoc, List.append_assoc]
    rw [hassoc, beforeComment_append hfront, hwords hgap]

end

/-! ### Reading lines -/

section
variable {line line' : List Char} {rest ls : List (List Char)} {number : Nat}
  {program : List SourceLine}
variable {commands : List Command}

/-- Only the words in front of the comment matter of a line. -/
theorem readFrom_congr (h : words (beforeComment line) = words (beforeComment line'))
    (done : List SourceLine) :
    readFrom number done (line :: rest) = readFrom number done (line' :: rest) := by
  rw [readFrom, readFrom, h]

/-- Lines with line feeds between them are read as these lines. -/
theorem readFrom_lines_intercalate (h : ∀ line ∈ ls, '\n' ∉ line) (number : Nat)
    (done : List SourceLine) :
    readFrom number done (lines (['\n'].intercalate ls)) = readFrom number done ls := by
  induction ls generalizing number done with
  | nil => rfl
  | cons line ls ih =>
    obtain ⟨hline, hls⟩ := List.forall_mem_cons.mp h
    have hmore (number : Nat) (done : List SourceLine) :
        readFrom number done (line :: lines (['\n'].intercalate ls)) =
        readFrom number done (line :: ls) := by
      rw [readFrom, readFrom]
      simp only [ih hls]
    cases ls with
    | cons line' ls =>
      rw [List.intercalate_cons_cons, List.append_assoc, List.singleton_append,
        lines_cons_feed hline, readFrom_congr (words_beforeComment_withoutReturn line), hmore]
    | nil =>
      rw [List.intercalate_singleton, lines_of_notMem hline]
      split
      · next hempty =>
        rw [List.isEmpty_iff.mp hempty]
        rfl
      · rfl

/-- **A program is read from its lines.** -/
theorem readFrom_of_laidOut (h : LaidOut number ls program)
    (hnames : ∀ l ∈ program, ∀ name ∈ l.command.names, IsName name.toList)
    (done : List SourceLine) : readFrom number done ls = .ok (done.reverse ++ program) := by
  induction h generalizing done with
  | nil => exact congrArg Except.ok (List.append_nil _).symm
  | skip hending _ ih =>
    rw [readFrom, words_beforeComment_ending hending]
    exact ih hnames done
  | @command number indent ending ls program c hindent hending hset _ ih =>
    obtain ⟨hc, hprogram⟩ := List.forall_mem_cons.mp hnames
    have hne : c.words.isEmpty = false := by
      cases c <;> rfl
    rw [readFrom, words_beforeComment_command hindent hending hset hc, hne,
      if_neg Bool.false_ne_true, Command.ofWords_words]
    refine (ih hprogram _).trans ?_
    rw [List.reverse_cons, List.append_assoc]
    rfl

theorem readProgram_of_laidOut (h : LaidOut 1 ls program) (hfeed : ∀ line ∈ ls, '\n' ∉ line)
    (hnames : ∀ l ∈ program, ∀ name ∈ l.command.names, IsName name.toList) :
    readProgram (String.ofList (['\n'].intercalate ls)) = .ok program := by
  unfold readProgram
  rw [String.toList_ofList, readFrom_lines_intercalate hfeed]
  exact readFrom_of_laidOut h hnames []

/-! ### Written programs -/

/-- The text of a program has a line for each command, and an empty one behind them. -/
theorem toList_programText (commands : List Command) : (programText commands).toList =
    ['\n'].intercalate ((commands.map fun c => c.text.toList) ++ [[]]) := by
  have hfold (out : String) : (commands.foldl (fun out c => out ++ c.line) out).toList =
      out.toList ++ ['\n'].intercalate ((commands.map fun c => c.text.toList) ++ [[]]) := by
    induction commands generalizing out with
    | nil => simp
    | cons c commands ih =>
      have hnext : ['\n'].intercalate (((c :: commands).map fun c => c.text.toList) ++ [[]]) =
          c.line.toList ++ ['\n'].intercalate ((commands.map fun c => c.text.toList) ++ [[]]) := by
        rw [List.map_cons, List.cons_append, List.intercalate_cons_of_ne_nil (by simp),
          Command.line, String.toList_append]
        rfl
      rw [List.foldl_cons, ih, String.toList_append, hnext, List.append_assoc]
  unfold programText
  rw [hfold]
  rfl

/-- Commands and the lines they are on, from a line on. -/
def numberedFrom (number : Nat) : List Command → List SourceLine
  | [] => []
  | c :: rest => ⟨number, c⟩ :: numberedFrom (number + 1) rest

theorem map_numberedFrom (number : Nat) (commands : List Command) :
    (numberedFrom number commands).map (·.command) = commands := by
  induction commands generalizing number with
  | nil => rfl
  | cons c commands ih => exact congrArg (c :: ·) (ih _)

theorem laidOut_numberedFrom (number : Nat) (commands : List Command) :
    LaidOut number ((commands.map fun c => c.text.toList) ++ [[]])
      (numberedFrom number commands) := by
  have hblank : AllBlank [] := fun _ hc => absurd hc List.not_mem_nil
  induction commands generalizing number with
  | nil => exact .skip (.blank hblank) .nil
  | cons c commands ih =>
    have hset : SetOff c.text.toList [] := fun hmeet => absurd hmeet.2 (by simp)
    have hcommand := LaidOut.command c hblank (.blank hblank) hset (ih (number + 1))
    rwa [List.nil_append, List.append_nil] at hcommand

/-- The text of a command has no line feed in it. -/
theorem feed_notMem_text {c : Command} (h : ∀ name ∈ c.names, IsRun name.toList) :
    '\n' ∉ c.text.toList := by
  have hwords : ∀ word ∈ c.words, ∀ x ∈ word.toList, x ≠ '\n' := by
    refine Command.forall_mem_words (fun word hword x hx => ?_) fun name hname x hx => ?_
    · rintro rfl
      exact absurd (hword.2 _ hx).1 (by decide)
    · rintro rfl
      exact absurd ((h name hname).not_blank _ hx) (by decide)
  rw [c.toList_text]
  intro hmem
  exact forall_mem_spaced (by decide) (List.forall_mem_map.mpr hwords) _ hmem rfl

/-- A program is read as it is written. -/
theorem readProgram_programText (h : ∀ c ∈ commands, ∀ name ∈ c.names, IsName name.toList) :
    readProgram (programText commands) = .ok (numberedFrom 1 commands) := by
  have hfeed : ∀ line ∈ (commands.map fun c => c.text.toList) ++ [[]], '\n' ∉ line := by
    refine List.forall_mem_append.mpr ⟨List.forall_mem_map.mpr fun c hc => ?_,
      List.forall_mem_singleton.mpr List.not_mem_nil⟩
    exact feed_notMem_text fun name hname => (h c hc name hname).toIsRun
  have hnames : ∀ l ∈ numberedFrom 1 commands, ∀ name ∈ l.command.names, IsName name.toList := by
    intro l hl
    refine h l.command ?_
    rw [← map_numberedFrom 1 commands]
    exact List.mem_map_of_mem hl
  have hread := readProgram_of_laidOut (laidOut_numberedFrom 1 commands) hfeed hnames
  rwa [← toList_programText, String.ofList_toList] at hread

/-- A sink that takes everything takes the text of the program. -/
theorem bytes_write_unlimited (commands : List Command) :
    (commands.foldl Jack.Sink.write .unlimited).bytes = (programText commands).toUTF8.toList := by
  have hfold (written : Array Command) :
      commands.foldl Jack.Sink.write ⟨none, written, []⟩ =
      ⟨none, written ++ commands.toArray, []⟩ := by
    induction commands generalizing written with
    | nil => simp
    | cons c commands ih =>
      rw [List.foldl_cons]
      refine (ih (written.push c)).trans ?_
      simp
  rw [Jack.Sink.unlimited, hfold, Jack.Sink.bytes]
  simp

/-- **Text and commands agree.**  What is written for commands is read as these commands, each on
the line of its number, and so is every text in which lines without commands, blanks and comments
have been added, on the lines where the commands are then.  What has been read of any text is read
from its own text. -/
theorem written_is_read_back (h : ∀ c ∈ commands, ∀ name ∈ c.names, IsName name.toList) :
    (commands.foldl Jack.Sink.write .unlimited).bytes = (programText commands).toUTF8.toList ∧
      readProgram (programText commands) = .ok (numberedFrom 1 commands) ∧
      (∀ (ls : List (List Char)) (program : List SourceLine), LaidOut 1 ls program →
        (∀ line ∈ ls, '\n' ∉ line) → program.map (·.command) = commands →
        readProgram (String.ofList (['\n'].intercalate ls)) = .ok program) ∧
      ∀ (text : List Char) (c : Command), Command.ofText text = .ok c →
        Command.ofText c.text.toList = .ok c := by
  refine ⟨bytes_write_unlimited commands, readProgram_programText h,
    fun ls program hlaid hfeed hmap => ?_, fun text c hread => Command.ofText_text hread⟩
  refine readProgram_of_laidOut hlaid hfeed fun l hl => h l.command ?_
  rw [← hmap]
  exact List.mem_map_of_mem hl

/-- Two commands, on the second and the fourth line of a text. -/
theorem written_is_read_back_label : (∀ name ∈ (Command.label "a/b").names, IsName name.toList) ∧
    readProgram "// b\n  label a/b // c\n\nreturn" = .ok [⟨2, .label "a/b"⟩, ⟨4, .ret⟩] := by
  have hlabel : ∀ name ∈ (Command.label "a/b").names, IsName name.toList :=
    List.forall_mem_singleton.mpr ⟨⟨by decide, by decide⟩, by unfold NoComment; decide⟩
  have hret : ∀ name ∈ Command.ret.names, IsName name.toList :=
    fun name hname => absurd hname List.not_mem_nil
  have hblank : AllBlank [] := fun _ hc => absurd hc List.not_mem_nil
  have hspace : AllBlank [' '] := List.forall_mem_singleton.mpr (by decide)
  have hspaces : AllBlank [' ', ' '] := List.forall_mem_cons.mpr ⟨by decide, hspace⟩
  have hset (c : Command) (ending : List Char) (hc : c.text.toList.getLast? ≠ some '/') :
      SetOff c.text.toList ending := fun hmeet => hc hmeet.1
  have hlaid : LaidOut 1
      [[] ++ '/' :: '/' :: " b".toList,
        [' ', ' '] ++ ((Command.label "a/b").text.toList ++ ([' '] ++ '/' :: '/' :: " c".toList)),
        [], [] ++ (Command.ret.text.toList ++ [])] [⟨2, .label "a/b"⟩, ⟨4, .ret⟩] :=
    .skip (.comment _ hblank) <| .command _ hspaces (.comment _ hspace) (hset _ _ (by decide)) <|
      .skip (.blank hblank) <| .command _ hblank (.blank hblank) (hset _ _ (by decide)) .nil
  have hwritten :=
    written_is_read_back (List.forall_mem_cons.mpr ⟨hlabel, List.forall_mem_singleton.mpr hret⟩)
  have hread := hwritten.2.2.1 _ _ hlaid (by decide) rfl
  refine ⟨hlabel, Eq.trans (congrArg readProgram ?_) hread⟩
  decide

/-- A comment right behind a name that ends with a slash begins too early. -/
theorem glued_comment_cuts_name : (∀ name ∈ (Command.label "a/").names, IsName name.toList) ∧
    readProgram ((Command.label "a/").text ++ "//x\n") = .ok [⟨1, .label "a"⟩] ∧
    Command.label "a" ≠ Command.label "a/" := by
  refine ⟨List.forall_mem_singleton.mpr ⟨⟨by decide, by decide⟩, by unfold NoComment; decide⟩,
    ?_, by decide⟩
  decide

end

end JackToolchain.VM
