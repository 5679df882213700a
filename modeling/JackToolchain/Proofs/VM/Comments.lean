import JackToolchain.Proofs.Hack.SourceParts
import JackToolchain.Proofs.VM.ProgramText
import JackToolchain.Proofs.VM.UnitOutcomes

/-!
# Comments in a translated program

A translator may write the text of a command in front of its block, as a comment.  Commands have
been read from lines, so their texts stay on one line (`Command.not_newline_text`), whatever
characters the names in them have.  A comment that stays on its line says nothing to the assembler
(`Program.glance_comment`).  A translator that writes comments writes the same lines otherwise
(`Translator.Uncomments`), so a program has the same words with comments and without, or is reported
with the same message apart from the number of the line (`assemble_translate_comments`).
-/

namespace JackToolchain.Hack

/-! ### Comments in a source -/

/-- Whether a line is no comment. -/
def Line.isStatement : Line → Bool
  | .statement _ => true
  | .comment _ => false

/-- A comment does not go on behind its line. -/
def Line.Contained : Line → Prop
  | .statement _ => True
  | .comment text => ∀ c ∈ text.toList, isNewline c = false

/-- No line is empty or begins with a carriage return. -/
theorem Line.exists_text : (l : Line) → ∃ c cs, l.text.toList = c :: cs ∧ c ≠ '\r'
  | .comment text => ⟨'/', '/' :: ' ' :: text.toList, String.toList_append, by decide⟩
  | .statement (.label name) => by
    refine ⟨'(', name.toList ++ [')'], ?_, by decide⟩
    show ("(" ++ name ++ ")").toList = _
    rw [String.toList_append, String.toList_append]
    rfl
  | .statement (.load o) => ⟨'@', o.text.toList, String.toList_append, by decide⟩
  | .statement (.compute i) => by
    obtain ⟨c, cs, hlist⟩ := List.exists_cons_of_ne_nil i.text_ne_nil
    refine ⟨c, cs, hlist, ?_⟩
    rintro rfl
    have hchar := i.isInstructionChar_of_mem_text '\r' (hlist ▸ List.mem_cons_self)
    exact absurd hchar (by decide)

theorem beginsLine_lines (ls : List Line) :
    BeginsLine (ls.flatMap fun l => l.text.toList ++ ['\n']) := by
  cases ls with
  | nil => nofun
  | cons l ls =>
    obtain ⟨c, cs, hlist, hc⟩ := l.exists_text
    rw [List.flatMap_cons, hlist]
    exact fun d hd => Option.some.inj hd ▸ hc

namespace Program

variable {p : Program} {ls : List Line}

/-- **A comment says nothing.** -/
theorem glance_comment {text : String} (h : (Line.comment text).Contained) :
    p.glance ((Line.comment text).text.toList ++ ['\n']) = .ok p := by
  have hcomment : (Line.comment text).text.toList = '/' :: '/' :: ' ' :: text.toList :=
    String.toList_append
  have hbody : ∀ c ∈ ' ' :: text.toList, isNewline c = false := List.forall_mem_cons.mpr ⟨rfl, h⟩
  have hblanks : Blanks [] := fun c hc => absurd hc List.not_mem_nil
  have hgap : Gap ['\n'] ([] ++ '/' :: '/' :: ' ' :: text.toList) :=
    .comment hblanks hbody (by decide)
  have htiles : Tiles 0 ('/' :: '/' :: ' ' :: text.toList ++ ['\n']) _ :=
    .last hgap (.char rfl fun h => absurd h (by decide)) rfl
  unfold glance
  rw [hcomment, addText_of_tiles htiles, tokenLines_ending rfl]
  rfl

/-- The first pass does not see comments. -/
theorem glance_statements (h : ∀ l ∈ ls, l.Contained) :
    p.glance (ls.flatMap fun l => l.text.toList ++ ['\n']) =
    p.glance ((ls.filter Line.isStatement).flatMap fun l => l.text.toList ++ ['\n']) := by
  induction ls generalizing p with
  | nil => rfl
  | cons l ls ih =>
    obtain ⟨hl, hls⟩ := List.forall_mem_cons.mp h
    have hfeed : (l.text.toList ++ ['\n']).getLast? = some '\n' := List.getLast?_concat
    rw [List.flatMap_cons, glance_append hfeed (beginsLine_lines ls)]
    cases l with
    | comment text =>
      rw [glance_comment hl, List.filter_cons_of_neg Bool.false_ne_true]
      exact ih hls
    | statement s =>
      rw [List.filter_cons_of_pos rfl, List.flatMap_cons, glance_append hfeed (beginsLine_lines _)]
      exact congrArg (_ >>= ·) (funext fun p => ih hls)

end Program

/-- **Comments change nothing but the numbers of lines.** -/
theorem unnumbered_assemble_linesText {ls : List Line} (h : ∀ l ∈ ls, l.Contained) :
    (assemble (linesText ls)).mapError AsmError.unnumbered =
      (assemble (linesText (ls.filter Line.isStatement))).mapError AsmError.unnumbered := by
  rw [unnumbered_assemble, unnumbered_assemble, toList_linesText, toList_linesText,
    Program.glance_statements h]

end JackToolchain.Hack

namespace JackToolchain.VM

open Hack Block Text

/-! ### Texts of commands -/

theorem isBlank_of_isNewline {c : Char} (h : isNewline c = true) : Text.isBlank c = true := by
  rcases eq_of_isNewline h with rfl | rfl <;> decide

/-- **The text of a command stays on one line** if its names do. -/
theorem Command.not_newline_text {command : Command}
    (h : ∀ name ∈ command.names, IsRun name.toList) :
    ∀ c ∈ command.text.toList, isNewline c = false := by
  have hrun {word : List Char} (hword : IsRun word) : ∀ c ∈ word, isNewline c = false := by
    intro c hc
    refine Bool.eq_false_iff.mpr fun hnewline => ?_
    exact Bool.eq_false_iff.mp (hword.not_blank c hc) (isBlank_of_isNewline hnewline)
  rw [command.toList_text]
  refine forall_mem_spaced rfl (List.forall_mem_map.mpr ?_)
  refine Command.forall_mem_words (fun word hword => ?_) fun name hname => ?_
  · exact hrun hword.isName.toIsRun
  · exact hrun (h name hname)

theorem ofText_of_readLine {line : List Char} {command : Command}
    (h : readLine line = .ok (some command)) :
    Command.ofText (beforeComment line) = .ok command := by
  unfold readLine at h
  split at h
  · cases h
  · generalize Command.ofText (beforeComment line) = result at h
    cases result <;> cases h
    rfl

/-- The names in a program that has been read are words of its lines. -/
theorem isRun_names_of_readProgram {source : String} {program : List SourceLine}
    (h : readProgram source = .ok program) :
    ∀ l ∈ program, ∀ name ∈ l.command.names, IsRun name.toList := by
  have hfrom {number : Nat} {done : List SourceLine} {ls : List (List Char)}
      (h : readFrom number done ls = .ok program)
      (hdone : ∀ l ∈ done, ∀ name ∈ l.command.names, IsRun name.toList) :
      ∀ l ∈ program, ∀ name ∈ l.command.names, IsRun name.toList := by
    induction ls generalizing number done with
    | nil =>
      cases h
      exact fun l hl => hdone l (List.mem_reverse.mp hl)
    | cons line ls ih =>
      rw [readFrom_cons] at h
      split at h
      · exact ih h hdone
      · next command hline =>
        have hnames := Command.isRun_names (ofText_of_readLine hline)
        exact ih h (List.forall_mem_cons.mpr ⟨hnames, hdone⟩)
      · cases h
  exact hfrom h fun l hl => absurd hl List.not_mem_nil

/-! ### Translators with comments and without -/

theorem Context.isStatement_of_block {c : Context} {command : Command} {block : List Line}
    (h : c.block command = .ok block) : ∀ l ∈ block, l.isStatement = true := by
  refine List.all_eq_true.mp ?_
  cases command with
  | push segment index =>
    obtain ⟨access, -, hlines⟩ := access_of_pushBlock h
    cases access <;> cases hlines <;> rfl
  | pop segment index =>
    obtain ⟨access, -, hlines⟩ := access_of_popBlock h
    cases access <;> cases hlines <;> rfl
  | arith op =>
    cases h
    cases op <;> rfl
  | function name locals =>
    cases h
    refine List.all_eq_true.mpr (List.forall_mem_cons.mpr ⟨rfl, fun l hl => ?_⟩)
    obtain ⟨zero, hzero, hl⟩ := List.mem_flatten.mp hl
    rw [List.eq_of_mem_replicate hzero] at hl
    exact List.all_eq_true.mp rfl l hl
  | label | goto | ifGoto | call | ret =>
    cases h
    rfl

namespace Translator

/-- A translator has come as far without comments as another one. -/
structure Uncomments (t t' : Translator) : Prop where
  settings : t'.settings = { t.settings with comments := false }
  context : t'.context = t.context
  lines : t'.lines.toList = t.lines.toList.filter Line.isStatement
  /-- The comments that there are stay on their lines. -/
  contained : ∀ l ∈ t.lines.toList, l.Contained

variable {t t' : Translator} {command : Command}

theorem contained_of_isStatement {l : Line} (h : l.isStatement = true) : l.Contained := by
  cases l with
  | statement s => trivial
  | comment text => cases h

/-- Lines that have been added to both. -/
theorem Uncomments.add {u u' : Translator} {ls : List Line} (h : t.Uncomments t')
    (hls : ∀ l ∈ ls, l.Contained) (hsettings : u.settings = t.settings)
    (hsettings' : u'.settings = t'.settings) (hcontext : u'.context = u.context)
    (hlines : u.lines.toList = t.lines.toList ++ ls)
    (hlines' : u'.lines.toList = t'.lines.toList ++ ls.filter Line.isStatement) :
    u.Uncomments u' where
  settings := by rw [hsettings', h.settings, hsettings]
  context := hcontext
  lines := by rw [hlines', h.lines, hlines, List.filter_append]
  contained := by
    rw [hlines]
    exact List.forall_mem_append.mpr ⟨h.contained, hls⟩

/-- **A command is translated to the same statements** with comments and without. -/
theorem Uncomments.write (h : t.Uncomments t')
    (hcommand : ∀ c ∈ command.text.toList, isNewline c = false) :
    (t'.write command).1 = (t.write command).1 ∧
      (t.write command).2.Uncomments (t'.write command).2 := by
  have hcomment : ∀ l ∈ t.settings.commentLines command.text, l.Contained := by
    unfold Settings.commentLines
    split
    · exact List.forall_mem_singleton.mpr hcommand
    · exact fun l hl => absurd hl List.not_mem_nil
  have hfilter : (t.settings.commentLines command.text).filter Line.isStatement = [] := by
    unfold Settings.commentLines
    split <;> rfl
  have hnone : t'.settings.commentLines command.text = [] := by rw [h.settings]; rfl
  cases hblock : t.context.block command with
  | ok block =>
    have hstatements := Context.isStatement_of_block hblock
    obtain ⟨u, hwrite, hsettings, hcontext, hlines⟩ := write_of_ok hblock
    obtain ⟨u', hwrite', hsettings', hcontext', hlines'⟩ :=
      write_of_ok (t := t') (h.context ▸ hblock)
    rw [hwrite, hwrite']
    rw [List.append_assoc] at hlines
    rw [hnone, List.append_nil] at hlines'
    refine ⟨rfl, h.add ?_ hsettings hsettings' ?_ hlines ?_⟩
    · exact List.forall_mem_append.mpr ⟨hcomment,
        fun l hl => contained_of_isStatement (hstatements l hl)⟩
    · rw [hcontext', hcontext, h.context]
    · rw [hlines', List.filter_append, hfilter, List.nil_append,
        List.filter_eq_self.mpr hstatements]
  | error fault =>
    obtain ⟨u, hwrite, hsettings, hcontext, hlines⟩ := write_of_error hblock
    obtain ⟨u', hwrite', hsettings', hcontext', hlines'⟩ :=
      write_of_error (t := t') (h.context ▸ hblock)
    rw [hwrite, hwrite']
    rw [hnone] at hlines'
    refine ⟨rfl, h.add hcomment hsettings hsettings' ?_ hlines ?_⟩
    · rw [hcontext', hcontext, h.context]
    · rw [hlines', hfilter]

theorem Uncomments.writeAll {ls : List SourceLine} (h : t.Uncomments t')
    (hls : ∀ l ∈ ls, ∀ c ∈ l.command.text.toList, isNewline c = false) :
    (t'.writeAll ls).1 = (t.writeAll ls).1 ∧ (t.writeAll ls).2.Uncomments (t'.writeAll ls).2 := by
  induction ls generalizing t t' with
  | nil => exact ⟨rfl, h⟩
  | cons l rest ih =>
    obtain ⟨hl, hrest⟩ := List.forall_mem_cons.mp hls
    obtain ⟨hresult, hwrite⟩ := h.write hl
    rw [writeAll_cons, writeAll_cons]
    generalize t.write l.command = result at hresult hwrite ⊢
    generalize t'.write l.command = result' at hresult hwrite ⊢
    obtain ⟨r, u⟩ := result
    obtain ⟨r', u'⟩ := result'
    obtain rfl : r' = r := hresult
    cases r' with
    | ok => exact ih hwrite hrest
    | error fault => exact ⟨rfl, hwrite⟩

theorem Uncomments.translateUnit (h : t.Uncomments t') (unit source : String) :
    (t'.translateUnit unit source).1 = (t.translateUnit unit source).1 ∧
      (t.translateUnit unit source).2.Uncomments (t'.translateUnit unit source).2 := by
  unfold Translator.translateUnit
  cases hread : readProgram source with
  | error e => exact ⟨rfl, h⟩
  | ok program =>
    have hbegin : (t.beginUnit unit).Uncomments (t'.beginUnit unit) :=
      ⟨h.settings, congrArg (fun c : Context => { c with unit }) h.context, h.lines, h.contained⟩
    exact hbegin.writeAll fun l hl =>
      Command.not_newline_text (isRun_names_of_readProgram hread l hl)

theorem uncomments_new (settings : Settings) :
    (new settings).Uncomments (new { settings with comments := false }) := by
  have hempty : Uncomments { settings } { settings := { settings with comments := false } } :=
    ⟨rfl, rfl, rfl, fun l hl => absurd hl List.not_mem_nil⟩
  obtain ⟨bootstrap, comments, endLoop⟩ := settings
  cases bootstrap with
  | false => exact hempty
  | true =>
    have hsetup : ∀ l ∈ [loadConstant stackStart, set toD .a, load "SP", set toM .d] ++
        Context.callBlock {} entryPoint 0, l.isStatement = true := List.all_eq_true.mp rfl
    have hcomment : ∀ l ∈ (if comments then [Line.comment "bootstrap"] else []), l.Contained := by
      have hbootstrap : (Line.comment "bootstrap").Contained := isNewline_of_any (by decide)
      split
      · exact List.forall_mem_singleton.mpr hbootstrap
      · exact fun l hl => absurd hl List.not_mem_nil
    have hcontained :=
      List.forall_mem_append.mpr ⟨hcomment, fun l hl => contained_of_isStatement (hsetup l hl)⟩
    cases comments <;> exact hempty.add hcontained rfl rfl rfl rfl rfl

theorem Uncomments.finish (h : t.Uncomments t') : ∃ ls : List Line, (∀ l ∈ ls, l.Contained) ∧
    t.finish = linesText ls ∧ t'.finish = linesText (ls.filter Line.isStatement) := by
  have hending : ∀ l ∈ ending t.settings, l.isStatement = true := by
    unfold ending
    split
    · exact List.all_eq_true.mp rfl
    · exact fun l hl => absurd hl List.not_mem_nil
  refine ⟨t.lines.toList ++ ending t.settings,
    List.forall_mem_append.mpr ⟨h.contained, fun l hl => ?_⟩, rfl, ?_⟩
  · exact contained_of_isStatement (hending l hl)
  · rw [List.filter_append, List.filter_eq_self.mpr hending, ← h.lines,
      Translator.finish, h.settings]
    rfl

end Translator

/-! ### Programs -/

/-- What comes of a unit, from its text to its words. -/
def assembled (unit source : String) (settings : Settings) :
    Except Error (Except AsmError (Array Word)) :=
  (translate unit source settings).map fun asm => (assemble asm).mapError AsmError.unnumbered

/-- Without comments, the same comes of a unit. -/
theorem assembled_uncommented (unit source : String) (settings : Settings) :
    assembled unit source settings = assembled unit source { settings with comments := false } := by
  obtain ⟨hresult, hstate⟩ := (Translator.uncomments_new settings).translateUnit unit source
  unfold assembled translate
  generalize (Translator.new settings).translateUnit unit source = result at hresult hstate ⊢
  generalize (Translator.new { settings with comments := false }).translateUnit unit source =
    result' at hresult hstate ⊢
  obtain ⟨r, t⟩ := result
  obtain ⟨r', t'⟩ := result'
  obtain rfl : r' = r := hresult
  cases r' with
  | error e => rfl
  | ok =>
    obtain ⟨ls, hcontained, hfinish, hfinish'⟩ := hstate.finish
    dsimp only at hfinish hfinish' ⊢
    rw [hfinish, hfinish']
    exact congrArg Except.ok (unnumbered_assemble_linesText hcontained)

/-- **Comments are transparent.**  With comments and without, a unit is not translated for the same
reason, or it is translated to programs that have the same words or are reported with messages that
differ at most in the number of the line. -/
theorem assemble_translate_comments (unit source : String) (settings : Settings) (comments : Bool) :
    (∃ e, translate unit source settings = .error e ∧
        translate unit source { settings with comments := comments } = .error e) ∨
      ∃ asm asm', translate unit source settings = .ok asm ∧
        translate unit source { settings with comments := comments } = .ok asm' ∧
          ((∃ words, assemble asm = .ok words ∧ assemble asm' = .ok words) ∨
            ∃ e e' rest, assemble asm = .error e ∧ assemble asm' = .error e' ∧
              e.unnumbered = e'.unnumbered ∧
              e.message = toString e.place.line ++ rest ∧
              e'.message = toString e'.place.line ++ rest) := by
  have hsame : assembled unit source settings =
      assembled unit source { settings with comments := comments } :=
    (assembled_uncommented unit source settings).trans
      (assembled_uncommented unit source { settings with comments := comments }).symm
  unfold assembled at hsame
  generalize translate unit source settings = result at hsame ⊢
  generalize translate unit source { settings with comments := comments } = result' at hsame ⊢
  cases result with
  | error e =>
    cases result' with
    | error e' => exact .inl ⟨e, rfl, congrArg Except.error (Except.error.inj hsame).symm⟩
    | ok asm' => cases hsame
  | ok asm =>
    cases result' with
    | error e' => cases hsame
    | ok asm' =>
      refine .inr ⟨asm, asm', rfl, rfl, ?_⟩
      have hassemble : (assemble asm).mapError AsmError.unnumbered =
          (assemble asm').mapError AsmError.unnumbered :=
        Except.ok.inj hsame
      generalize assemble asm = words at hassemble ⊢
      generalize assemble asm' = words' at hassemble ⊢
      cases words with
      | error e =>
        cases words' with
        | error e' =>
          have hplace : e.unnumbered = e'.unnumbered := Except.error.inj hassemble
          obtain ⟨rest, hmessage, hmessage'⟩ := AsmError.messages_of_unnumbered_eq hplace
          exact .inr ⟨e, e', rest, rfl, rfl, hplace, hmessage, hmessage'⟩
        | ok rom' => cases hassemble
      | ok rom =>
        cases words' with
        | error e' => cases hassemble
        | ok rom' => exact .inl ⟨rom, rfl, congrArg Except.ok (Except.ok.inj hassemble).symm⟩

end JackToolchain.VM
