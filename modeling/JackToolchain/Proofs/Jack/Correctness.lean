import Mathlib.Data.List.Forall2
import JackToolchain.Proofs.Jack.Generated
import JackToolchain.Proofs.Jack.StatementCode

/-!
# Generation preserves meaning

What a class is compiled to is one block of commands for each of its subroutines, in order.  A block
begins with the only `function` command in it, sets the object of the subroutine up, and then
returns whatever the statements of the subroutine return, in the store that they leave
(`Implements`).
-/

namespace JackToolchain.Jack

open VM (Command Environment Machine Reaches declaredLabels declaredLabels_append)

/-- A block of commands is a function that does what a subroutine of a class does.  Before the
declarations of the class, `outer` are in scope. -/
structure Implements (block : List Command) (s : Subroutine) (c : Class) (outer : Scope) :
    Prop where
  begins : block[0]? =
      some (.function (c.name.name ++ "." ++ s.name.name) (BitVec.ofNat 16 s.localCount))
  /-- No other function begins in the block. -/
  alone : block.tail.all inner
  distinct : (declaredLabels block).Nodup
  /-- The first commands set the object up, and the stack is as before. -/
  enters : ∀ env m, ∃ m',
    Reaches env block ⟨1, m⟩ ⟨1 + (s.kind.setupCode (c.fieldCount outer)).length, m'⟩ ∧
    view m' = ⟨m.stack, s.kind.enter env (c.fieldCount outer) m.toStore⟩
  /-- If the statements return, so do the commands behind the first ones, with the value above what
  was on the stack. -/
  returns : ∀ env m value σ,
    Runs env (s.naming c outer) (.all s.body) m.toStore (.returned value σ) →
      ∃ last m',
        Reaches env block ⟨1 + (s.kind.setupCode (c.fieldCount outer)).length, m⟩ ⟨last, m'⟩ ∧
        block[last]? = some .ret ∧ view m' = ⟨value :: m.stack, σ⟩

section
variable {env : Environment} {s : List Word} {σ : VM.Store}

/-- What popping into `pointer 0` makes of a store. -/
theorem computes_popThis (x : Word) :
    Computes env [.pop .pointer 0] ⟨x :: s, σ⟩ ⟨s, { σ with thisBase := x }⟩ := by
  refine .single fun code place m hm => ?_
  obtain ⟨σ', stack, thatBase, temp⟩ := m
  cases hm
  exact ⟨_, rfl, rfl⟩

theorem SubroutineKind.computes_setup (kind : SubroutineKind) (fields : Nat) :
    Computes env (kind.setupCode fields) ⟨s, σ⟩ ⟨s, kind.enter env fields σ⟩ := by
  cases kind with
  | function => exact .nil
  | constructor =>
    have hcall : Computes env _ ⟨_ :: s, σ⟩ _ := computes_call "Memory.alloc"
      (show (1 : Word).toNat = [BitVec.ofNat 16 fields].length from rfl)
    exact ((computes_pushConstant _).append hcall).append (computes_popThis _)
  | method =>
    have hpush : Computes env [.push .argument 0] ⟨s, σ⟩ ⟨σ.arguments 0 :: s, σ⟩ := by
      refine .single fun code place m hm => ?_
      cases hm
      exact ⟨_, rfl, rfl⟩
    exact hpush.append (computes_popThis _)

end

section
variable {c : Class} {outer : Scope} {n : Nat}

theorem Subroutine.nodup_declaredLabels (s : Subroutine) :
    (declaredLabels (s.code c outer n)).Nodup := by
  have hsetup := declaredLabels_of_straight (s.kind.straight_setupCode (c.fieldCount outer))
  show (declaredLabels (_ ++ _)).Nodup
  rw [declaredLabels_append, hsetup]
  exact (statements_labelsIn (s.naming c outer) n s.body).nodup

/-- **The code of a subroutine implements it.** -/
theorem Subroutine.implements {s : Subroutine} (hg : AllGenerable (s.naming c outer) s.body) :
    Implements (s.code c outer n) s c outer := by
  have hplaced : PlacedAt (s.code c outer n) 1 (s.kind.setupCode (c.fieldCount outer)
      ++ statementsCode (s.naming c outer) n s.body) := ⟨[], List.append_nil _⟩
  obtain ⟨hsetup, hbody⟩ := placedAt_append.mp hplaced
  refine ⟨rfl, ?_, s.nodup_declaredLabels, ?_, ?_⟩
  · show (_ ++ _ : List Command).all inner = true
    rw [List.all_append, inner_of_straight (s.kind.straight_setupCode _), inner_statementsCode]
    rfl
  · intro env m
    exact s.kind.computes_setup _ _ _ hsetup m rfl
  · intro env m value σ hruns
    obtain ⟨last, hret, hleads⟩ := hruns.ends s.nodup_declaredLabels n _ m.stack hg hbody
    obtain ⟨m', hreach, hm'⟩ := hleads m rfl
    exact ⟨last, m', hreach, hret, hm'⟩

theorem implements_subroutineCodes {subroutines : List Subroutine}
    (hg : ∀ s ∈ subroutines, AllGenerable (s.naming c outer) s.body) :
    List.Forall₂ (fun s block => Implements block s c outer) subroutines
      (subroutineCodes c outer n subroutines) := by
  induction subroutines generalizing n with
  | nil => exact .nil
  | cons s rest ih =>
    obtain ⟨hs, hrest⟩ := List.forall_mem_cons.mp hg
    exact .cons (s.implements hs) (ih hrest)

/-- **A compiled class does what its subroutines do.**  What is appended to the output consists of
one block for each subroutine, in order, that implements it. -/
theorem compile_implements {g g' : Generator} (h : g.compile c = (.ok (), g')) :
    ∃ blocks, g'.sink.commands.toList = g.sink.commands.toList ++ blocks.flatten ∧
      List.Forall₂ (fun s block => Implements block s c g.symbols.ofClass) c.subroutines
        blocks := by
  obtain ⟨hg, hcommands⟩ := Class.commands_of_compile h
  exact ⟨_, hcommands, implements_subroutineCodes hg⟩

end

/-- A class with the subroutine `function int seven() { while (true) { return 7; } return 0; }`. -/
def sevenClass : Class where
  name := ⟨"Main", default⟩
  classVars := []
  subroutines := [{
    kind := .function
    returns := .value .int
    name := ⟨"seven", default⟩
    parameters := []
    locals := []
    body := [
      .while (.mk (.literal .true) []) [.return (some (.mk (.literal (.int 7 "7")) []))],
      .return (some (.mk (.literal (.int 0 "0")) []))] }]

/-- The loop returns from its first round, and so does the block. -/
theorem compile_implements_seven :
    ∃ g', (Generator.new .unlimited).compile sevenClass = (.ok (), g') ∧
      ∀ env m, ∃ last m', Reaches env g'.sink.commands.toList ⟨1, m⟩ ⟨last, m'⟩ ∧
        g'.sink.commands.toList[last]? = some .ret ∧ view m' = ⟨7 :: m.stack, m.toStore⟩ := by
  have hcompile : ∃ g', (Generator.new .unlimited).compile sevenClass = (.ok (), g') := ⟨_, rfl⟩
  obtain ⟨g', hcompile⟩ := hcompile
  refine ⟨g', hcompile, fun env m => ?_⟩
  obtain ⟨blocks, hcommands, hall⟩ := compile_implements hcompile
  obtain ⟨block, rest, himpl, hrest, rfl⟩ := List.forall₂_cons_left_iff.mp hall
  cases hrest
  have hblock : g'.sink.commands.toList = block := hcommands.trans (List.append_nil block)
  have hruns (names : Naming) : Runs env names
      (.all (sevenClass.subroutines.flatMap Subroutine.body))
      m.toStore (.returned 7 m.toStore) := by
    have htrue : (Expr.mk (.literal .true) []).eval env names m.toStore = some (-1, m.toStore) := by
      rw [Expr.eval, Term.eval]
      rfl
    have hseven : (Expr.mk (.literal (.int 7 "7")) []).eval env names m.toStore =
        some (7, m.toStore) := by
      rw [Expr.eval, Term.eval]
      rfl
    exact .stop (.whileReturns htrue (by decide) (.stop (.returnValue hseven)))
  rw [hblock]
  obtain ⟨last, m', hreach, hret, hview⟩ := himpl.returns env m 7 m.toStore (hruns _)
  exact ⟨last, m', hreach, hret, hview⟩

end JackToolchain.Jack
