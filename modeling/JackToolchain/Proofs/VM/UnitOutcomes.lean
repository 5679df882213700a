import JackToolchain.Proofs.Text.Lines
import JackToolchain.Proofs.VM.Legality

/-!
# What becomes of a unit

A unit is read before any of its commands is translated, so there are two ways in which it can be in
error.  If one of its lines is no command, the first such line is reported and the translator is as
it was before (`readFrom_of_error`).  If all lines can be read but one of the commands has no block,
the first such command is reported, and the translator is as the commands in front of it leave it,
with at most a comment added (`Translator.writeAll_of_fault`).  What is wrong with a command can be
told from the command alone (`Context.block_eq_error_iff`).
-/

namespace JackToolchain.Text

/-- **A line without words** has nothing but blanks. -/
theorem words_eq_nil_iff {line : List Char} : words line = [] ↔ AllBlank line := by
  have hfrom (read : List Char) (done : List (List Char)) :
      wordsFrom read done line = [] → read = [] ∧ done = [] ∧ AllBlank line := by
    -- A word that has been begun is never given up.
    have hfinished {read : List Char} {done : List (List Char)}
        (h : (if read.isEmpty then done else read.reverse :: done) = []) : read = [] ∧
        done = [] := by
      split at h
      · next hread => exact ⟨List.isEmpty_iff.mp hread, h⟩
      · cases h
    fun_induction wordsFrom read done line with
    | case1 read done =>
      intro h
      obtain ⟨hread, hdone⟩ := hfinished (List.reverse_eq_nil_iff.mp h)
      exact ⟨hread, hdone, fun c hc => absurd hc List.not_mem_nil⟩
    | case2 read done c line hc ih =>
      intro h
      obtain ⟨-, hrest, hline⟩ := ih h
      obtain ⟨hread, hdone⟩ := hfinished hrest
      exact ⟨hread, hdone, List.forall_mem_cons.mpr ⟨hc, hline⟩⟩
    | case3 read done c line hc ih =>
      intro h
      obtain ⟨hread, -⟩ := ih h
      cases hread
  exact ⟨fun h => (hfrom [] [] h).2.2, words_of_allBlank⟩

instance : DecidablePred AllBlank :=
  fun line => inferInstanceAs (Decidable (∀ c ∈ line, isBlank c = true))

end JackToolchain.Text

namespace JackToolchain.VM

open Text Hack

/-- Of elements that do not all have a property, there is a first one that has not. -/
theorem exists_first_not {α : Type} {p : α → Prop} {xs : List α} (h : ¬∀ x ∈ xs, p x) :
    ∃ front x behind, xs = front ++ x :: behind ∧ (∀ y ∈ front, p y) ∧ ¬p x := by
  classical
  have hfound : (xs.find? fun x => decide (¬p x)).isSome := by simpa using h
  obtain ⟨x, hx⟩ := Option.isSome_iff_exists.mp hfound
  obtain ⟨hnot, front, behind, hsplit, hfront⟩ := List.find?_eq_some_iff_append.mp hx
  exact ⟨front, x, behind, hsplit, fun y hy => by simpa using hfront y hy, of_decide_eq_true hnot⟩

/-! ### Reading -/

/-- The command that stands on a line in front of its comment.  There is none if there are only
blanks. -/
def readLine (line : List Char) : Except Fault (Option Command) :=
  if AllBlank (beforeComment line) then .ok none else (Command.ofText (beforeComment line)).map some

/-- A line that is blank or a command. -/
def Readable (line : List Char) : Prop := ∃ command?, readLine line = .ok command?

/-- The commands of lines, of which the first has the given number. -/
def commandsFrom (number : Nat) (ls : List (List Char)) : List SourceLine :=
  (ls.zipIdx number).filterMap fun (line, number) => (readLine line).toOption.join.map fun c =>
    ⟨number, c⟩

section
variable {number : Nat} {line : List Char} {front behind rest : List (List Char)}
  {done : List SourceLine} {fault : Fault}

theorem readFrom_cons : readFrom number done (line :: rest) =
    match readLine line with
    | .ok none => readFrom (number + 1) done rest
    | .ok (some command) => readFrom (number + 1) (⟨number, command⟩ :: done) rest
    | .error fault => .error ⟨some number, fault⟩ := by
  rw [readFrom, readLine, Command.ofText]
  by_cases hblank : AllBlank (beforeComment line)
  · rw [if_pos hblank, words_of_allBlank hblank]
    rfl
  · have hwords : ((words (beforeComment line)).map String.ofList).isEmpty = false := by
      rw [List.isEmpty_map]
      exact List.isEmpty_eq_false_iff.mpr fun hnil => hblank (words_eq_nil_iff.mp hnil)
    rw [if_neg hblank, hwords, if_neg Bool.false_ne_true]
    cases Command.ofWords ((words (beforeComment line)).map String.ofList) <;> rfl

theorem commandsFrom_cons {command? : Option Command} (h : readLine line = .ok command?) :
    commandsFrom number (line :: rest) =
      (command?.map fun c => ⟨number, c⟩).toList ++ commandsFrom (number + 1) rest := by
  unfold commandsFrom
  rw [List.zipIdx_cons, List.filterMap_cons]
  dsimp only
  rw [h]
  cases command? <;> rfl

/-- Lines that can be read are read. -/
theorem readFrom_append (h : ∀ line ∈ front, Readable line) (rest : List (List Char)) :
    readFrom number done (front ++ rest) =
      readFrom (number + front.length) ((commandsFrom number front).reverse ++ done) rest := by
  induction front generalizing number done with
  | nil => rfl
  | cons line front ih =>
    obtain ⟨⟨command?, hline⟩, hfront⟩ := List.forall_mem_cons.mp h
    have hnumber : number + 1 + front.length = number + (line :: front).length := by
      rw [List.length_cons]
      omega
    rw [List.cons_append, readFrom_cons, hline, commandsFrom_cons hline, ← hnumber]
    cases command? with
    | none => exact ih hfront
    | some command =>
      refine (ih hfront).trans ?_
      rw [List.reverse_append, List.append_assoc]
      rfl

/-- **A program whose lines can all be read** consists of their commands. -/
theorem readProgram_of_readable {source : String}
    (h : ∀ line ∈ lines source.toList, Readable line) :
    readProgram source = .ok (commandsFrom 1 (lines source.toList)) := by
  have hread : readFrom 1 [] _ = _ := readFrom_append h []
  rw [List.append_nil, List.append_nil, readFrom, List.reverse_reverse] at hread
  exact hread

/-- **The first line that cannot be read** is reported, whatever stands behind it. -/
theorem readFrom_of_error (hfront : ∀ line ∈ front, Readable line)
    (hline : readLine line = .error fault) :
    readFrom number done (front ++ line :: behind) = .error ⟨some (number + front.length),
      fault⟩ := by
  rw [readFrom_append hfront, readFrom_cons, hline]

theorem exists_error_of_not_readable (h : ¬Readable line) :
    ∃ fault, readLine line = .error fault := by
  unfold Readable at h
  cases hline : readLine line with
  | ok command? => exact absurd ⟨command?, hline⟩ h
  | error fault => exact ⟨fault, rfl⟩

end

/-! ### Commands without a block -/

/-- What is wrong with a cell of a segment, if there is none of the index. -/
def Segment.fault? (segment : Segment) (index : Word) : Option Fault :=
  if segment.Holds index then none else some (.indexOutOfRange segment index)

/-- What is wrong with a command that cannot be translated. -/
def Command.fault? : Command → Option Fault
  | .push segment index => segment.fault? index
  | .pop .constant index => some (.popIntoConstant index)
  | .pop segment index => segment.fault? index
  | .arith _ | .label _ | .goto _ | .ifGoto _ | .function .. | .call .. | .ret => none

theorem Command.fault?_eq_none_iff {command : Command} :
    command.fault? = none ↔ command.Translatable := by
  have hsegment {segment : Segment} {index : Word} : segment.fault? index = none ↔
      segment.Holds index := by
    unfold Segment.fault?
    split <;> simpa
  cases command with
  | push segment index => exact hsegment
  | pop segment index =>
    cases segment with
    | constant => simp [Command.fault?, Command.Translatable]
    | argument | locals | statics | this | that | pointer | temp =>
      exact hsegment.trans (and_iff_right (by decide)).symm
  | arith | label | goto | ifGoto | function | call | ret => exact iff_of_true rfl trivial

namespace Context

variable {c : Context} {command : Command} {segment : Segment} {index : Word} {fault : Fault}

/-- Where there is no cell, every access to it says so. -/
theorem access_of_not_holds (h : ¬segment.Holds index) :
    c.access segment index = .error (.indexOutOfRange segment index) := by
  cases segment with
  | constant | argument | locals | statics | this | that => exact absurd trivial h
  | temp | pointer => exact if_neg h

theorem block_of_fault (h : command.fault? = some fault) : c.block command = .error fault := by
  have hcell {segment : Segment} {index : Word} (h : segment.fault? index = some fault) :
      c.access segment index = .error fault := by
    unfold Segment.fault? at h
    split at h
    · cases h
    · next hholds =>
      cases h
      exact access_of_not_holds hholds
  cases command with
  | push segment index =>
    show c.pushBlock segment index = .error fault
    rw [pushBlock, hcell h]
  | pop segment index =>
    show c.popBlock segment index = .error fault
    cases segment with
    | constant =>
      cases h
      rfl
    | argument | locals | statics | this | that | pointer | temp => rw [popBlock, hcell h]
  | arith | label | goto | ifGoto | function | call | ret => cases h

/-- **A command without a block** has the same fault in all contexts. -/
theorem block_eq_error_iff : c.block command = .error fault ↔ command.fault? = some fault := by
  refine ⟨fun h => ?_, block_of_fault⟩
  cases hfault : command.fault? with
  | none =>
    obtain ⟨block, hblock⟩ := exists_block (c := c) (Command.fault?_eq_none_iff.mp hfault)
    cases h.symm.trans hblock
  | some fault' =>
    cases h.symm.trans (block_of_fault hfault)
    rfl

end Context

/-! ### Units -/

namespace Translator

variable {t t' : Translator} {before after : List SourceLine} {l : SourceLine} {fault : Fault}

/-- A translator that has written a comment, if there are to be comments. -/
def remark (t : Translator) (text : String) : Translator :=
  { t with lines := t.lines.appendList (t.settings.commentLines text) }

/-- Of a command without a block, only the comment is written. -/
theorem write_of_fault {command : Command} (h : command.fault? = some fault) :
    t.write command = (.error fault, t.remark command.text) := by
  obtain ⟨settings, lines, context⟩ := t
  have hblock : context.block command = .error fault := Context.block_of_fault h
  unfold write
  dsimp only [remark, Settings.commentLines]
  rw [hblock]
  cases settings.comments <;> rfl

/-- **The first command without a block** is reported, whatever stands behind it. -/
theorem writeAll_of_fault (h : t.writeAll before = (.ok (), t'))
    (hl : l.command.fault? = some fault) :
    t.writeAll (before ++ l :: after) = (.error ⟨some l.line, fault⟩,
      t'.remark l.command.text) := by
  rw [writeAll_append h, writeAll_cons, write_of_fault hl]

section
variable {unit source : String} {front behind : List (List Char)} {line : List Char}

/-- A unit with a line that cannot be read changes nothing. -/
theorem translateUnit_of_unreadable (h : Text.lines source.toList = front ++ line :: behind)
    (hfront : ∀ line ∈ front, Readable line) (hline : readLine line = .error fault) :
    t.translateUnit unit source = (.error ⟨some (front.length + 1), fault⟩, t) := by
  have hread : readProgram source = .error ⟨some (1 + front.length), fault⟩ := by
    rw [readProgram, h]
    exact readFrom_of_error hfront hline
  rw [translateUnit, hread, Nat.add_comm]

theorem translateUnit_of_readable (h : ∀ line ∈ Text.lines source.toList, Readable line) :
    t.translateUnit unit source =
      (t.beginUnit unit).writeAll (commandsFrom 1 (Text.lines source.toList)) := by
  rw [translateUnit, readProgram_of_readable h]

/-- A unit with a command that has no block is translated up to that command. -/
theorem translateUnit_of_fault (t : Translator) (unit : String)
    (h : ∀ line ∈ Text.lines source.toList, Readable line)
    (hprogram : commandsFrom 1 (Text.lines source.toList) = before ++ l :: after)
    (hbefore : ∀ l ∈ before, l.command.Translatable) (hl : l.command.fault? = some fault) :
    ∃ t', (t.beginUnit unit).writeAll before = (.ok (), t') ∧
      t.translateUnit unit source = (.error ⟨some l.line, fault⟩, t'.remark l.command.text) := by
  obtain ⟨t', hwrite, -⟩ := writeAll_of_translatable (t := t.beginUnit unit) hbefore
  refine ⟨t', hwrite, ?_⟩
  rw [translateUnit_of_readable h, hprogram]
  exact writeAll_of_fault hwrite hl

end

/-- **What becomes of a unit.**  It is translated if all of its lines can be read and all of its
commands have blocks.  Otherwise the first line that cannot be read is reported, and nothing has
changed; or all lines can be read, the first command without a block is reported, and the commands
in front of it have been translated. -/
theorem translateUnit_outcome (t : Translator) (unit source : String) :
    let ls := Text.lines source.toList
    let program := commandsFrom 1 ls
    ((t.translateUnit unit source).1 = .ok () ↔
        (∀ line ∈ ls, Readable line) ∧ ∀ l ∈ program, l.command.Translatable) ∧
      ((¬∀ line ∈ ls, Readable line) → ∃ front line behind fault,
        ls = front ++ line :: behind ∧ (∀ line ∈ front, Readable line) ∧
          readLine line = .error fault ∧
          t.translateUnit unit source = (.error ⟨some (front.length + 1), fault⟩, t)) ∧
      ((∀ line ∈ ls, Readable line) → (¬∀ l ∈ program, l.command.Translatable) →
        ∃ before l after fault t',
          program = before ++ l :: after ∧ (∀ l ∈ before, l.command.Translatable) ∧
            l.command.fault? = some fault ∧
            (t.beginUnit unit).writeAll before = (.ok (), t') ∧
            t.translateUnit unit source =
              (.error ⟨some l.line, fault⟩, t'.remark l.command.text)) := by
  intro ls program
  refine ⟨⟨fun h => ?_, fun ⟨hls, hprogram⟩ => ?_⟩, fun h => ?_, fun hls h => ?_⟩
  · -- Of a unit that has been translated, no line can have been reported.
    by_cases hls : ∀ line ∈ ls, Readable line
    · rw [translateUnit_of_readable hls] at h
      exact ⟨hls, writeAll_ok_iff.mp h⟩
    · obtain ⟨front, line, behind, hsplit, hfront, hline⟩ := exists_first_not hls
      obtain ⟨fault, hfault⟩ := exists_error_of_not_readable hline
      rw [translateUnit_of_unreadable hsplit hfront hfault] at h
      cases h
  · rw [translateUnit_of_readable hls]
    exact writeAll_ok_iff.mpr hprogram
  · obtain ⟨front, line, behind, hsplit, hfront, hline⟩ := exists_first_not h
    obtain ⟨fault, hfault⟩ := exists_error_of_not_readable hline
    exact ⟨front, line, behind, fault, hsplit, hfront, hfault,
      translateUnit_of_unreadable hsplit hfront hfault⟩
  · obtain ⟨before, l, after, hsplit, hbefore, hl⟩ := exists_first_not h
    obtain ⟨fault, hfault⟩ :=
      Option.ne_none_iff_exists'.mp fun hnone => hl (Command.fault?_eq_none_iff.mp hnone)
    obtain ⟨t', hwrite, hunit⟩ := translateUnit_of_fault t unit hls hsplit hbefore hfault
    exact ⟨before, l, after, fault, t', hsplit, hbefore, hfault, hwrite, hunit⟩

end Translator

end JackToolchain.VM
