import JackToolchain.Proofs.VM.UnitCode

/-!
# Which units can be translated

A command has a block if it pops into no constant and its segment has the index
(`Context.exists_block_iff`).  This does not depend on the context, so that whether a unit can be
translated does not depend on the translator: on what has been translated before, on the name of the
unit or on the settings (`Translator.translateUnit_ok_iff`).
-/

namespace JackToolchain.VM

open Hack Block

/-! ### Commands -/

namespace Context

variable {c : Context} {command : Command} {segment : Segment} {index : Word}

theorem holds_of_access {access : Access} (h : c.access segment index = .ok access) :
    segment.Holds index := by
  unfold Context.access at h
  cases segment with
  | constant | argument | locals | statics | this | that => exact trivial
  | temp | pointer =>
    dsimp only at h
    split at h
    · assumption
    · cases h

/-- **A command has a block** if and only if it can be translated anywhere. -/
theorem exists_block_iff : (∃ block, c.block command = .ok block) ↔ command.Translatable := by
  refine ⟨fun ⟨block, h⟩ => ?_, exists_block⟩
  cases command with
  | push segment index =>
    obtain ⟨access, haccess, -⟩ := access_of_pushBlock h
    exact holds_of_access haccess
  | pop segment index =>
    obtain ⟨access, haccess, hlines⟩ := access_of_popBlock h
    refine ⟨?_, holds_of_access haccess⟩
    rintro rfl
    cases haccess
    exact hlines
  | arith | label | goto | ifGoto | function | call | ret => exact trivial

end Context

/-! ### Units -/

/-- Whether a unit can be read and its commands can be translated. -/
def Legal (source : String) : Prop :=
  ∃ program, readProgram source = .ok program ∧ ∀ l ∈ program, l.command.Translatable

namespace Translator

theorem writeAll_ok_iff {t : Translator} {ls : List SourceLine} :
    (t.writeAll ls).1 = .ok () ↔ ∀ l ∈ ls, l.command.Translatable := by
  induction ls generalizing t with
  | nil => simp [writeAll]
  | cons l rest ih =>
    rw [writeAll_cons, List.forall_mem_cons, ← Context.exists_block_iff (c := t.context)]
    cases hblock : t.context.block l.command with
    | ok block =>
      obtain ⟨t', hwrite, -⟩ := write_of_ok hblock
      rw [hwrite]
      exact ih.trans (and_iff_right ⟨block, rfl⟩).symm
    | error fault =>
      obtain ⟨t', hwrite, -⟩ := write_of_error hblock
      rw [hwrite]
      simp

/-- **Whether a unit can be translated** does not depend on the translator. -/
theorem translateUnit_ok_iff (t : Translator) (unit source : String) :
    (t.translateUnit unit source).1 = .ok () ↔ Legal source := by
  unfold translateUnit Legal
  cases readProgram source with
  | error e => simp
  | ok program => simpa using writeAll_ok_iff

end Translator

/-- A unit that can be translated can be translated on its own. -/
theorem exists_translate_iff {unit source : String} {settings : Settings} :
    (∃ asm, translate unit source settings = .ok asm) ↔ Legal source := by
  rw [← Translator.translateUnit_ok_iff (Translator.new settings) unit]
  unfold translate
  generalize (Translator.new settings).translateUnit unit source = result
  match result with
  | (.ok (), t) => simp
  | (.error e, t) => simp

end JackToolchain.VM
