import JackToolchain.Proofs.Hack.Printing
import JackToolchain.VM.Translator

/-!
# The lines of a translated program

A translator puts the blocks of commands one behind the other.  Where a command is translated
(`Occurs`), the program consists of the lines in front of its block, the block, and the lines behind
it (`program_of_occurs`).

If the names of units, functions and labels are symbols, so are all names that blocks use, those
that the translator makes up included, and every line of a program is read as what it says
(`printable_program`).
-/

namespace JackToolchain.Hack

/-! ### Names -/

instance (name : String) : Decidable (IsSymbol name) :=
  decidable_of_iff
    ((match name.toList with
      | [] => false
      | x :: xs => isSymbolStart x && xs.all isSymbolPart) = true) <| by
    unfold IsSymbol
    split
    · next h => simp [h]
    · next x xs h =>
      rw [h, Bool.and_eq_true, List.all_eq_true]
      constructor
      · exact fun hx => ⟨x, xs, rfl, hx⟩
      · rintro ⟨_, _, ⟨⟩, hx⟩
        exact hx

section
variable {p s : String}

theorem isSymbolPart_of_mem (h : IsSymbol s) : ∀ c ∈ s.toList, isSymbolPart c = true := by
  obtain ⟨x, xs, hlist, hx, hxs⟩ := h
  rw [hlist]
  exact List.forall_mem_cons.mpr ⟨isSymbolPart_of_isSymbolStart hx, hxs⟩

/-- A symbol can be extended by characters of symbols. -/
theorem IsSymbol.extend (h : IsSymbol p) (hs : ∀ c ∈ s.toList, isSymbolPart c = true) :
    IsSymbol (p ++ s) := by
  obtain ⟨x, xs, hlist, hx, hxs⟩ := h
  refine ⟨x, xs ++ s.toList, ?_, hx, List.forall_mem_append.mpr ⟨hxs, hs⟩⟩
  rw [String.toList_append, hlist, List.cons_append]

/-- A symbol may have another one before it. -/
theorem IsSymbol.behind (hs : IsSymbol s) (hp : p = "" ∨ IsSymbol p) : IsSymbol (p ++ s) := by
  rcases hp with rfl | hp
  · rwa [String.empty_append]
  · exact hp.extend (isSymbolPart_of_mem hs)

/-- A symbol may have a number behind it. -/
theorem IsSymbol.numbered (hs : IsSymbol s) (n : Nat) : IsSymbol (s ++ toString n) :=
  hs.extend fun _ hc => isSymbolPart_of_isDigit (Text.isDigit_of_mem_toString hc)

end

end JackToolchain.Hack

namespace JackToolchain.VM

open Hack Block

/-- The names in a command. -/
def Command.names : Command → List String
  | .label name | .goto name | .ifGoto name | .function name _ | .call name _ => [name]
  | .push _ _ | .pop _ _ | .arith _ | .ret => []

/-! ### Printable blocks -/

/-- The unit and the function of a context, if there are any, are symbols. -/
structure Context.Named (c : Context) : Prop where
  unit : c.unit = "" ∨ IsSymbol c.unit
  function : c.function = "" ∨ IsSymbol c.function

section
variable {s : String} {n : Nat} {dest : Dest} {comp : Comp} {j : Jump}

@[simp]
theorem printable_load : (load s).Printable ↔ IsSymbol s := Iff.rfl

@[simp]
theorem printable_label : (Block.label s).Printable ↔ IsSymbol s := Iff.rfl

@[simp]
theorem printable_loadConstant : (loadConstant n).Printable := trivial

@[simp]
theorem printable_set : (set dest comp).Printable := trivial

@[simp]
theorem printable_jump : (jump comp j).Printable := trivial

theorem isSymbol_registers :
    IsSymbol "SP" ∧ IsSymbol "LCL" ∧ IsSymbol "ARG" ∧ IsSymbol "THIS" ∧ IsSymbol "THAT" ∧
    IsSymbol "R13" ∧ IsSymbol "R14" := by
  decide

end

namespace Context

section
variable {c : Context} {segment : Segment} {index : Word} {block : List Line} {command : Command}

theorem isSymbol_scopedLabel {name : String} (hc : c.Named) (hname : IsSymbol name) :
    IsSymbol (c.scopedLabel name) := by
  unfold scopedLabel
  split
  · exact hname
  · have hdollar : IsSymbol "$" := by decide
    exact hname.behind (.inr (hdollar.behind hc.function))

theorem isSymbol_trueLabel (hc : c.Named) : IsSymbol c.trueLabel := by
  have htext : IsSymbol "$CMP_TRUE_" := by decide
  exact (htext.behind hc.unit).numbered _

theorem isSymbol_endLabel (hc : c.Named) : IsSymbol c.endLabel := by
  have htext : IsSymbol "$CMP_END_" := by decide
  exact (htext.behind hc.unit).numbered _

theorem isSymbol_returnLabel (hc : c.Named) : IsSymbol c.returnLabel := by
  have htext : IsSymbol "$ret." := by decide
  unfold returnLabel
  split
  · have hbootstrap : IsSymbol "Bootstrap" := by decide
    exact (htext.behind (.inr hbootstrap)).numbered _
  · exact (htext.behind hc.function).numbered _

/-- The symbol of an access, if it has one. -/
def Access.symbol? : Access → Option String
  | .immediate => none
  | .indirect base => some base
  | .direct symbol => some symbol

theorem isSymbol_of_access {found : Access} (hc : c.Named)
    (h : c.access segment index = .ok found) : ∀ s ∈ found.symbol?, IsSymbol s := by
  obtain ⟨-, hlcl, harg, hthis, hthat, -⟩ := isSymbol_registers
  intro s hs
  cases segment with
  | constant => cases h; cases hs
  | locals => cases h; cases hs; exact hlcl
  | argument => cases h; cases hs; exact harg
  | this => cases h; cases hs; exact hthis
  | that => cases h; cases hs; exact hthat
  | statics =>
    have hdot : IsSymbol "." := by decide
    cases h
    cases hs
    exact (hdot.behind hc.unit).numbered _
  | temp =>
    have hr : IsSymbol "R" := by decide
    unfold access at h
    dsimp only at h
    split at h
    · cases h
      cases hs
      exact hr.numbered _
    · cases h
  | pointer =>
    unfold access at h
    dsimp only at h
    split at h
    · cases h
      cases hs
      split
      · exact hthis
      · exact hthat
    · cases h

theorem printable_of_pushBlock (hc : c.Named) (h : c.pushBlock segment index = .ok block) :
    ∀ l ∈ block, l.Printable := by
  obtain ⟨hsp, -⟩ := isSymbol_registers
  obtain ⟨found, hfound, hblock⟩ := access_of_pushBlock h
  have hsymbol := isSymbol_of_access hc hfound
  cases found with
  | immediate =>
    cases hblock
    simp [pushD, hsp]
  | indirect base =>
    cases hblock
    simp [pushD, hsp, hsymbol base rfl]
  | direct symbol =>
    cases hblock
    simp [pushCell, pushD, hsp, hsymbol symbol rfl]

theorem printable_of_popBlock (hc : c.Named) (h : c.popBlock segment index = .ok block) :
    ∀ l ∈ block, l.Printable := by
  obtain ⟨hsp, -, -, -, -, hr13, -⟩ := isSymbol_registers
  obtain ⟨found, hfound, hblock⟩ := access_of_popBlock h
  have hsymbol := isSymbol_of_access hc hfound
  cases found with
  | immediate => cases hblock
  | indirect base =>
    cases hblock
    simp [popD, popCell, hsp, hr13, hsymbol base rfl]
  | direct symbol =>
    cases hblock
    simp [popD, popCell, hsp, hsymbol symbol rfl]

theorem printable_functionBlock {name : String} (hname : IsSymbol name) (locals : Word) :
    ∀ l ∈ functionBlock name locals, l.Printable := by
  obtain ⟨hsp, -⟩ := isSymbol_registers
  have hzero : ∀ l ∈ pushZero, l.Printable := by
    simp [pushZero, hsp]
  refine List.forall_mem_cons.mpr ⟨hname, fun l hl => ?_⟩
  obtain ⟨zero, hmem, hl⟩ := List.mem_flatten.mp hl
  rw [List.eq_of_mem_replicate hmem] at hl
  exact hzero l hl

/-- **Every line of a block can be read.** -/
theorem printable_of_block (hc : c.Named) (hnames : ∀ name ∈ command.names, IsSymbol name)
    (h : c.block command = .ok block) : ∀ l ∈ block, l.Printable := by
  obtain ⟨hsp, hlcl, harg, hthis, hthat, hr13, hr14⟩ := isSymbol_registers
  cases command with
  | push segment index => exact printable_of_pushBlock hc h
  | pop segment index => exact printable_of_popBlock hc h
  | arith op =>
    cases h
    cases op <;>
      simp [arithBlock, unaryBlock, binaryBlock, compareBlock, popD, popCell, pushD,
        Block.goto, hsp, isSymbol_trueLabel hc, isSymbol_endLabel hc]
  | label name =>
    cases h
    simpa using isSymbol_scopedLabel hc (hnames name (List.mem_singleton_self _))
  | goto name =>
    cases h
    simpa [Block.goto] using isSymbol_scopedLabel hc (hnames name (List.mem_singleton_self _))
  | ifGoto name =>
    cases h
    simpa [popD, popCell, hsp]
      using isSymbol_scopedLabel hc (hnames name (List.mem_singleton_self _))
  | function name locals =>
    cases h
    exact printable_functionBlock (hnames name (List.mem_singleton_self _)) locals
  | call name args =>
    cases h
    have hname : IsSymbol name := hnames name (List.mem_singleton_self _)
    simp [callBlock, pushCell, pushD, copy, Block.goto, hsp, hlcl, harg, hthis, hthat, hname,
      isSymbol_returnLabel hc]
  | ret =>
    cases h
    simp [returnBlock, copy, popD, popCell, restore, hsp, hlcl, harg, hthis, hthat, hr13, hr14]

end

end Context

/-! ### Programs -/

/-- The lines that show a command, or whatever a text says. -/
def Settings.commentLines (settings : Settings) (text : String) : List Line :=
  if settings.comments then [.comment text] else []

namespace Translator

/-- The lines that set up the stack. -/
def stackSetup (settings : Settings) : List Line :=
  settings.commentLines "bootstrap" ++ [loadConstant stackStart, set toD .a, load "SP", set toM .d]

/-- The translator behind units.  Of a unit that is in error, what has been translated is kept. -/
def ofUnits (settings : Settings) (units : List (String × String)) : Translator :=
  units.foldl (fun t u => (t.translateUnit u.1 u.2).2) (new settings)

/-- All lines of a program that consists of units. -/
def program (settings : Settings) (units : List (String × String)) : List Line :=
  (ofUnits settings units).lines.toList ++ ending (ofUnits settings units).settings

/-- **Where commands are translated.**  In the program of some units, a command has its block behind
the lines of `front`, in the context `c`.  The commands of a program are those of its units, up to
the first in a unit that is in error, and the call that sets the program going. -/
inductive Occurs (settings : Settings) (units : List (String × String)) :
    List Line → Context → Command → List Line → Prop
  | bootstrap : settings.bootstrap = true →
      Occurs settings units (stackSetup settings) {} (.call entryPoint 0)
      (Context.callBlock {} entryPoint 0)
  | ofUnit {front behind : List (String × String)} {unit source : String}
      {before after : List SourceLine} {l : SourceLine} {t : Translator} {block : List Line} :
      units = front ++ (unit, source) :: behind → readProgram source = .ok (before ++ l :: after) →
      ((ofUnits settings front).beginUnit unit).writeAll before = (.ok (), t) →
      t.context.block l.command = .ok block →
      Occurs settings units (t.lines.toList ++ settings.commentLines l.command.text) t.context
      l.command block

/-- The names that units, functions and labels have are symbols. -/
def NamesAreSymbols (units : List (String × String)) : Prop :=
  ∀ u ∈ units, IsSymbol u.1 ∧ ∀ program, readProgram u.2 = .ok program →
    ∀ l ∈ program, ∀ name ∈ l.command.names, IsSymbol name

/-! ### One command -/

section
variable {t t' : Translator} {command : Command} {block : List Line}

theorem write_of_ok (h : t.context.block command = .ok block) :
    ∃ t', t.write command = (.ok (), t') ∧ t'.settings = t.settings ∧
      t'.context = t.context.after command ∧
      t'.lines.toList = t.lines.toList ++ t.settings.commentLines command.text ++ block := by
  obtain ⟨settings, lines, context⟩ := t
  replace h : context.block command = .ok block := h
  have hwrite : write ⟨settings, lines, context⟩ command =
      (.ok (), ⟨settings,
        (if settings.comments then lines.push (.comment command.text) else lines).appendList block,
        context.after command⟩) := by
    unfold write
    dsimp only
    rw [h]
  refine ⟨_, hwrite, rfl, rfl, ?_⟩
  dsimp only [Settings.commentLines]
  rw [Array.appendList_eq_append, Array.toList_appendList]
  split
  · rw [Array.toList_push]
  · rw [List.append_nil]

theorem write_of_error {fault : Fault} (h : t.context.block command = .error fault) :
    ∃ t', t.write command = (.error fault, t') ∧ t'.settings = t.settings ∧ t'.context = t.context ∧
      t'.lines.toList = t.lines.toList ++ t.settings.commentLines command.text := by
  obtain ⟨settings, lines, context⟩ := t
  replace h : context.block command = .error fault := h
  have hwrite : write ⟨settings, lines, context⟩ command =
      (.error fault,
        ⟨settings, if settings.comments then lines.push (.comment command.text) else lines,
          context⟩) := by
    unfold write
    dsimp only
    rw [h]
  refine ⟨_, hwrite, rfl, rfl, ?_⟩
  dsimp only [Settings.commentLines]
  split
  · rw [Array.toList_push]
  · rw [List.append_nil]

/-- A translator has gone on from another one. -/
def GoesOn (t t' : Translator) : Prop :=
  t'.settings = t.settings ∧ ∃ more, t'.lines.toList = t.lines.toList ++ more

theorem GoesOn.refl (t : Translator) : GoesOn t t := ⟨rfl, [], (List.append_nil _).symm⟩

theorem GoesOn.trans {t'' : Translator} (h : GoesOn t t') (h' : GoesOn t' t'') : GoesOn t t'' := by
  obtain ⟨hsettings, more, hmore⟩ := h
  obtain ⟨hsettings', more', hmore'⟩ := h'
  exact ⟨hsettings'.trans hsettings, more ++ more', by rw [hmore', hmore, List.append_assoc]⟩

theorem goesOn_write (t : Translator) (command : Command) : GoesOn t (t.write command).2 := by
  cases hblock : t.context.block command with
  | ok block =>
    obtain ⟨t', hwrite, hsettings, -, hlines⟩ := write_of_ok hblock
    rw [hwrite]
    exact ⟨hsettings, _, by rw [hlines, List.append_assoc]⟩
  | error fault =>
    obtain ⟨t', hwrite, hsettings, -, hlines⟩ := write_of_error hblock
    rw [hwrite]
    exact ⟨hsettings, _, hlines⟩

theorem writeAll_cons {l : SourceLine} {rest : List SourceLine} :
    t.writeAll (l :: rest) =
      match t.write l.command with
      | (.ok (), t) => t.writeAll rest
      | (.error fault, t) => (.error ⟨some l.line, fault⟩, t) := rfl

theorem goesOn_writeAll (t : Translator) (ls : List SourceLine) : GoesOn t (t.writeAll ls).2 := by
  induction ls generalizing t with
  | nil => exact .refl t
  | cons l rest ih =>
    have hwrite := goesOn_write t l.command
    rw [writeAll_cons]
    generalize t.write l.command = result at hwrite ⊢
    match result with
    | (.ok (), t₁) => exact hwrite.trans (ih t₁)
    | (.error fault, t₁) => exact hwrite

theorem goesOn_translateUnit (t : Translator) (unit source : String) :
    GoesOn t (t.translateUnit unit source).2 := by
  unfold translateUnit
  cases readProgram source with
  | error e => exact .refl t
  | ok program => exact goesOn_writeAll _ _

theorem goesOn_units (t : Translator) (units : List (String × String)) :
    GoesOn t (units.foldl (fun t u => (t.translateUnit u.1 u.2).2) t) := by
  induction units generalizing t with
  | nil => exact .refl t
  | cons u units ih => exact (goesOn_translateUnit t u.1 u.2).trans (ih _)

/-- Translating commands up to one and then the others. -/
theorem writeAll_append {before after : List SourceLine} (h : t.writeAll before = (.ok (), t')) :
    t.writeAll (before ++ after) = t'.writeAll after := by
  induction before generalizing t with
  | nil =>
    cases h
    rfl
  | cons l rest ih =>
    rw [writeAll_cons] at h
    rw [List.cons_append, writeAll_cons]
    generalize t.write l.command = result at h ⊢
    match result with
    | (.ok (), t₁) => exact ih h
    | (.error fault, t₁) => cases h

end

/-! ### Whole programs -/

section
variable {settings : Settings} {units : List (String × String)} {front block : List Line}
  {c : Context} {command : Command}

theorem settings_new : (new settings).settings = settings := by
  unfold new
  split <;> rfl

theorem lines_new_of_bootstrap (h : settings.bootstrap = true) :
    (new settings).lines.toList = stackSetup settings ++ Context.callBlock {} entryPoint 0 := by
  unfold new stackSetup Settings.commentLines
  rw [if_pos h]

/-- **A program around a command.** -/
theorem program_of_occurs (h : Occurs settings units front c command block) :
    c.block command = .ok block ∧ ∃ behind, program settings units = front ++ block ++ behind := by
  cases h with
  | bootstrap hbootstrap =>
    refine ⟨rfl, ?_⟩
    obtain ⟨-, more, hmore⟩ := goesOn_units (new settings) units
    refine ⟨more ++ ending (ofUnits settings units).settings, ?_⟩
    unfold program ofUnits
    rw [hmore, lines_new_of_bootstrap hbootstrap, List.append_assoc]
  | @ofUnit before behind unit source ls₁ ls₂ l t _ hunits hsource hbefore hblock =>
    refine ⟨hblock, ?_⟩
    obtain ⟨t', hwrite, -, -, hlines⟩ := write_of_ok hblock
    have hsettings : t.settings = settings := by
      have hbegin := goesOn_writeAll ((ofUnits settings before).beginUnit unit) ls₁
      rw [hbefore] at hbegin
      have hunits' := goesOn_units (new settings) before
      exact hbegin.1.trans (hunits'.1.trans settings_new)
    -- What is translated behind the command only adds lines.
    have hunit : ((ofUnits settings before).translateUnit unit source).2 = (t'.writeAll ls₂).2 := by
      unfold translateUnit
      rw [hsource]
      dsimp only
      rw [writeAll_append hbefore, writeAll_cons, hwrite]
    have hall : ofUnits settings units =
        behind.foldl (fun t u => (t.translateUnit u.1 u.2).2) (t'.writeAll ls₂).2 := by
      rw [hunits, ← hunit]
      unfold ofUnits
      rw [List.foldl_append, List.foldl_cons]
    obtain ⟨-, more, hmore⟩ := (goesOn_writeAll t' ls₂).trans (goesOn_units _ behind)
    refine ⟨more ++ ending (ofUnits settings units).settings, ?_⟩
    unfold program
    rw [hall, hmore, hlines, hsettings, List.append_assoc]

/-- A translator whose context has names, and whose lines can be read. -/
structure Printable (t : Translator) : Prop where
  named : t.context.Named
  lines : ∀ l ∈ t.lines.toList, l.Printable

theorem isNewline_of_any {xs : List Char} (h : xs.any isNewline = false) :
    ∀ x ∈ xs, isNewline x = false := by
  simpa using h

/-- The text of a command has no line break. -/
theorem printable_text (hnames : ∀ name ∈ command.names, IsSymbol name) :
    (Line.comment command.text).Printable := by
  have hsymbol {name : String} (hname : IsSymbol name) : ∀ x ∈ name.toList, isNewline x = false :=
    fun x hx => not_newline_of_isSymbolPart (isSymbolPart_of_mem hname x hx)
  have hdecimal (w : Word) : ∀ x ∈ w.decimal.toList, isNewline x = false :=
    fun x hx =>
      not_newline_of_isSymbolPart (isSymbolPart_of_isDigit (Text.isDigit_of_mem_toString hx))
  have hsegment (s : Segment) : ∀ x ∈ s.name.toList, isNewline x = false := by
    refine isNewline_of_any ?_
    cases s <;> decide
  have hop (op : ArithOp) : ∀ x ∈ op.name.toList, isNewline x = false := by
    refine isNewline_of_any ?_
    cases op <;> decide
  have htext {s t : String} (hs : ∀ x ∈ s.toList, isNewline x = false) (ht : ∀ x ∈ t.toList,
      isNewline x = false) : ∀ x ∈ (s ++ t).toList, isNewline x = false := by
    rw [String.toList_append]
    exact List.forall_mem_append.mpr ⟨hs, ht⟩
  cases command with
  | push segment index | pop segment index =>
    exact htext (htext (htext (isNewline_of_any (by decide)) (hsegment segment))
      (isNewline_of_any (by decide))) (hdecimal index)
  | arith op => exact hop op
  | label name | goto name | ifGoto name =>
    exact htext (isNewline_of_any (by decide)) (hsymbol (hnames name (List.mem_singleton_self _)))
  | function name n | call name n =>
    have hname := hsymbol (hnames name (List.mem_singleton_self _))
    exact htext (htext (htext (isNewline_of_any (by decide)) hname) (isNewline_of_any (by decide)))
      (hdecimal n)
  | ret =>
    have hreturn : ("return".toList).any isNewline = false := by decide
    exact isNewline_of_any hreturn

theorem named_after (h : c.Named) (hnames : ∀ name ∈ command.names, IsSymbol name) :
    (c.after command).Named := by
  cases command with
  | function name locals => exact ⟨h.unit, .inr (hnames name (List.mem_singleton_self _))⟩
  | arith op => cases op <;> exact ⟨h.unit, h.function⟩
  | push | pop | label | goto | ifGoto | call | ret => exact ⟨h.unit, h.function⟩

theorem printable_write {t : Translator} (h : Printable t)
    (hnames : ∀ name ∈ command.names, IsSymbol name) : Printable (t.write command).2 := by
  have hcomment : ∀ l ∈ t.settings.commentLines command.text, l.Printable := by
    unfold Settings.commentLines
    split
    · exact List.forall_mem_singleton.mpr (printable_text hnames)
    · exact fun l hl => absurd hl List.not_mem_nil
  have hlines := List.forall_mem_append.mpr ⟨h.lines, hcomment⟩
  cases hblock : t.context.block command with
  | ok block =>
    obtain ⟨t', hwrite, -, hcontext, heq⟩ := write_of_ok hblock
    rw [hwrite]
    refine ⟨?_, ?_⟩
    · rw [hcontext]
      exact named_after h.named hnames
    · rw [heq]
      exact List.forall_mem_append.mpr ⟨hlines, Context.printable_of_block h.named hnames hblock⟩
  | error fault =>
    obtain ⟨t', hwrite, -, hcontext, heq⟩ := write_of_error hblock
    rw [hwrite]
    refine ⟨?_, ?_⟩
    · rw [hcontext]
      exact h.named
    · rw [heq]
      exact hlines

theorem printable_writeAll {t : Translator} {ls : List SourceLine} (h : Printable t)
    (hnames : ∀ l ∈ ls, ∀ name ∈ l.command.names, IsSymbol name) : Printable (t.writeAll ls).2 := by
  induction ls generalizing t with
  | nil => exact h
  | cons l rest ih =>
    obtain ⟨hl, hrest⟩ := List.forall_mem_cons.mp hnames
    have hwrite := printable_write h hl
    rw [writeAll_cons]
    generalize t.write l.command = result at hwrite ⊢
    match result with
    | (.ok (), t₁) => exact ih hwrite hrest
    | (.error fault, t₁) => exact hwrite

theorem printable_translateUnit {t : Translator} {unit source : String} (h : Printable t)
    (hunit : IsSymbol unit) (hnames : ∀ ls, readProgram source = .ok ls → ∀ l ∈ ls,
      ∀ name ∈ l.command.names, IsSymbol name) :
    Printable (t.translateUnit unit source).2 := by
  unfold translateUnit
  cases hread : readProgram source with
  | error e => exact h
  | ok ls =>
    have hbegin : Printable (t.beginUnit unit) := ⟨⟨.inr hunit, h.named.function⟩, h.lines⟩
    exact printable_writeAll hbegin (hnames ls hread)

theorem printable_units {t : Translator} (h : Printable t) (hnames : NamesAreSymbols units) :
    Printable (units.foldl (fun t u => (t.translateUnit u.1 u.2).2) t) := by
  induction units generalizing t with
  | nil => exact h
  | cons u units ih =>
    obtain ⟨⟨hunit, hsource⟩, hunits⟩ := List.forall_mem_cons.mp hnames
    exact ih (printable_translateUnit h hunit hsource) hunits

theorem printable_new : Printable (new settings) := by
  have hnamed (n : Nat) : Context.Named { calls := n } := ⟨.inl rfl, .inl rfl⟩
  unfold new
  split
  · refine ⟨hnamed 1, ?_⟩
    have hsetup : ∀ l ∈ (if settings.comments then [Line.comment "bootstrap"] else []) ++
        [loadConstant stackStart, set toD .a, load "SP", set toM .d], l.Printable := by
      have hcomment : (Line.comment "bootstrap").Printable := isNewline_of_any (by decide)
      split <;> simp [hcomment, isSymbol_registers]
    have hentry : ∀ name ∈ (Command.call entryPoint 0).names, IsSymbol name := by decide
    exact List.forall_mem_append.mpr ⟨hsetup, Context.printable_of_block (hnamed 0) hentry rfl⟩
  · exact ⟨hnamed 0, fun l hl => absurd hl List.not_mem_nil⟩

/-- **Every line of a program can be read.** -/
theorem printable_program (hnames : NamesAreSymbols units) :
    ∀ l ∈ program settings units, l.Printable := by
  have hend : IsSymbol "END" := by decide
  refine List.forall_mem_append.mpr ⟨(printable_units printable_new hnames).lines, ?_⟩
  unfold ending
  split
  · simp [Block.goto, hend]
  · exact fun l hl => absurd hl List.not_mem_nil

end

end Translator

end JackToolchain.VM
