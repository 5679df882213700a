import JackToolchain.Proofs.Hack.Assembled
import JackToolchain.Proofs.VM.Listing

/-!
# What a unit is translated to

A unit whose commands all have blocks is translated to the end, and its lines can be said without
the translator: they are the blocks of the commands, one behind the other, each in the context that
the commands before it leave (`Context.code`).  What labels and constants there are among the lines
of a block can be told from the command.
-/

namespace JackToolchain.VM

open Hack Block

/-! ### Commands with blocks -/

/-- Whether a segment has a cell or a value of an index. -/
def Segment.Holds (index : Word) : Segment → Prop
  | .temp => index.toNat < tempSize
  | .pointer => index.toNat < pointerSize
  | .constant | .argument | .locals | .statics | .this | .that => True

/-- Whether a command can be translated. -/
def Command.Translatable : Command → Prop
  | .push segment index => segment.Holds index
  | .pop segment index => segment ≠ .constant ∧ segment.Holds index
  | .arith _ | .label _ | .goto _ | .ifGoto _ | .function .. | .call .. | .ret => True

instance (index : Word) : DecidablePred (Segment.Holds index)
  | .temp | .pointer => inferInstanceAs (Decidable (_ < _))
  | .constant | .argument | .locals | .statics | .this | .that => isTrue trivial

instance : DecidablePred Command.Translatable
  | .push segment index => inferInstanceAs (Decidable (segment.Holds index))
  | .pop segment index => inferInstanceAs (Decidable (segment ≠ .constant ∧ segment.Holds index))
  | .arith _ | .label _ | .goto _ | .ifGoto _ | .function .. | .call .. | .ret => isTrue trivial

/-- Whether the index of a segment is loaded, as a value or in order to add it to the base of the
segment. -/
def Segment.loadsIndex : Segment → Bool
  | .constant | .argument | .locals | .this | .that => true
  | .statics | .pointer | .temp => false

/-- The constants that the block of a command loads.  A call goes back over the arguments and the
five words that it has pushed, and a return over those five. -/
def Command.constants : Command → List Nat
  | .push segment index | .pop segment index => if segment.loadsIndex then [index.toNat] else []
  | .call _ args => [5 + args.toNat]
  | .ret => [5]
  | .arith _ | .label _ | .goto _ | .ifGoto _ | .function .. => []

/-- The operand of a command can be loaded. -/
def Command.Loadable (c : Command) : Prop := ∀ n ∈ c.constants, n ≤ maxConstant

instance : DecidablePred Command.Loadable :=
  fun c => inferInstanceAs (Decidable (∀ n ∈ c.constants, n ≤ maxConstant))

namespace Context

variable {c : Context} {command : Command} {block : List Line} {segment : Segment} {index : Word}

theorem exists_access (h : segment.Holds index) :
    ∃ access, c.access segment index = .ok access := by
  cases segment with
  | constant | argument | locals | statics | this | that => exact ⟨_, rfl⟩
  | temp | pointer => exact ⟨_, if_pos h⟩

theorem access_eq_immediate (h : c.access segment index = .ok .immediate) :
    segment = .constant := by
  unfold access at h
  cases segment with
  | constant => rfl
  | argument | locals | statics | this | that => cases h
  | temp | pointer =>
    dsimp only at h
    split at h <;> cases h

theorem exists_block (h : command.Translatable) : ∃ block, c.block command = .ok block := by
  cases command with
  | push segment index =>
    obtain ⟨access, haccess⟩ := exists_access (c := c) h
    show ∃ block, c.pushBlock segment index = .ok block
    unfold pushBlock
    rw [haccess]
    cases access <;> exact ⟨_, rfl⟩
  | pop segment index =>
    obtain ⟨access, haccess⟩ := exists_access (c := c) h.2
    show ∃ block, c.popBlock segment index = .ok block
    unfold popBlock
    rw [haccess]
    cases access with
    | immediate => exact absurd (access_eq_immediate haccess) h.1
    | indirect base | direct symbol => exact ⟨_, rfl⟩
  | arith | label | goto | ifGoto | function | call | ret => exact ⟨_, rfl⟩

theorem loadsIndex_of_access {access : Access} (h : c.access segment index = .ok access) :
    segment.loadsIndex = match access with
      | .immediate | .indirect _ => true
      | .direct _ => false := by
  unfold Context.access at h
  cases segment with
  | constant | argument | locals | this | that | statics =>
    cases h
    rfl
  | temp | pointer =>
    dsimp only at h
    split at h
    · cases h
      rfl
    · cases h

/-- The lines of zeros that a function begins with declare and load nothing. -/
theorem filterMap_pushZeros {β : Type} {f : Line → Option β}
    (h : pushZero.filterMap f = []) (n : Nat) :
    (List.replicate n pushZero).flatten.filterMap f = [] := by
  refine List.filterMap_eq_nil_iff.mpr fun l hl => ?_
  obtain ⟨zero, hzero, hl⟩ := List.mem_flatten.mp hl
  rw [List.eq_of_mem_replicate hzero] at hl
  exact List.filterMap_eq_nil_iff.mp h l hl

/-- **The constants of a block.** -/
theorem constants_of_block (h : c.block command = .ok block) :
    block.filterMap Line.constant? = command.constants := by
  cases command with
  | push segment index =>
    obtain ⟨access, haccess, hlines⟩ := access_of_pushBlock h
    rw [Command.constants, loadsIndex_of_access haccess]
    cases access <;> cases hlines <;> rfl
  | pop segment index =>
    obtain ⟨access, haccess, hlines⟩ := access_of_popBlock h
    rw [Command.constants, loadsIndex_of_access haccess]
    cases access <;> cases hlines <;> rfl
  | arith op => cases h; cases op <;> rfl
  | function name locals =>
    cases h
    exact filterMap_pushZeros rfl _
  | label | goto | ifGoto | call | ret => cases h; rfl

/-! ### Lines of commands -/

/-- The context behind commands. -/
def afterAll (c : Context) (commands : List Command) : Context := commands.foldl after c

/-- The lines of commands, where the context is `c` in front of them. -/
def code (settings : Settings) (c : Context) : List Command → List Line
  | [] => []
  | command :: rest =>
    settings.commentLines command.text ++ (c.block command).toOption.getD []
      ++ (c.after command).code settings rest

theorem filterMap_commentLines {β : Type} {f : Line → Option β}
    (h : ∀ text, f (.comment text) = none) (settings : Settings) (text : String) :
    (settings.commentLines text).filterMap f = [] := by
  unfold Settings.commentLines
  split
  · exact List.filterMap_cons_none (h text)
  · rfl

/-- What the lines of commands hold is what their blocks hold. -/
theorem filterMap_code_cons {β : Type} {f : Line → Option β} (hf : ∀ text, f (.comment text) = none)
    {settings : Settings} {rest : List Command} (h : c.block command = .ok block) :
    (c.code settings (command :: rest)).filterMap f =
      block.filterMap f ++ ((c.after command).code settings rest).filterMap f := by
  rw [code, h, List.filterMap_append, List.filterMap_append, filterMap_commentLines hf,
    List.nil_append]
  rfl

/-- **The constants of commands.** -/
theorem constants_of_code {settings : Settings} {commands : List Command}
    (h : ∀ c ∈ commands, c.Translatable) :
    (c.code settings commands).filterMap Line.constant? = commands.flatMap Command.constants := by
  induction commands generalizing c with
  | nil => rfl
  | cons command rest ih =>
    obtain ⟨hcommand, hrest⟩ := List.forall_mem_cons.mp h
    obtain ⟨block, hblock⟩ := exists_block (c := c) hcommand
    rw [filterMap_code_cons (fun _ => rfl) hblock, constants_of_block hblock, ih hrest,
      List.flatMap_cons]

end Context

/-- **Commands that can be translated are translated to their lines.** -/
theorem Translator.writeAll_of_translatable {t : Translator} {ls : List SourceLine}
    (h : ∀ l ∈ ls, l.command.Translatable) :
    ∃ t', t.writeAll ls = (.ok (), t') ∧ t'.settings = t.settings ∧
      t'.context = t.context.afterAll (ls.map (·.command)) ∧
      t'.lines.toList = t.lines.toList ++ t.context.code t.settings (ls.map (·.command)) := by
  induction ls generalizing t with
  | nil => exact ⟨t, rfl, rfl, rfl, (List.append_nil _).symm⟩
  | cons l rest ih =>
    obtain ⟨hl, hrest⟩ := List.forall_mem_cons.mp h
    obtain ⟨block, hblock⟩ := Context.exists_block (c := t.context) hl
    obtain ⟨t₁, hwrite, hsettings, hcontext, hlines⟩ := write_of_ok hblock
    obtain ⟨t', hall, hsettings', hcontext', hlines'⟩ := ih (t := t₁) hrest
    refine ⟨t', ?_, hsettings'.trans hsettings, ?_, ?_⟩
    · rw [writeAll_cons, hwrite]
      exact hall
    · rw [hcontext', hcontext]
      rfl
    · rw [hlines', hlines, hsettings, hcontext, List.map_cons, Context.code, hblock,
        List.append_assoc, List.append_assoc, List.append_assoc]
      rfl

end JackToolchain.VM
