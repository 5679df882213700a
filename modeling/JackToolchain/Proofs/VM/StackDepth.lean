import JackToolchain.Proofs.Placement
import JackToolchain.Proofs.VM.Machine
import JackToolchain.Proofs.VM.UnitCode

/-!
# How deep the stack is

A command pops a number of operands and pushes one or none, and both numbers can be told from the
command alone.  So the number of operands that a function has on the stack at a command can be told
from the commands before it, as long as the ways that lead to the command agree.  A function in
which they do is `Balanced`.

The operands are counted by one walk over the commands (`depthBehind`).  It asks that nothing is on
the stack where the commands are not executed one behind the other, at labels and behind jumps; a
function that passes the walk is balanced (`balanced_of_depthBehind`).

What has been counted is what is there.  Wherever a run of a balanced function leads, the stack is
that of the caller with the counted operands on top of it (`Balanced.stands_of_reaches`), and so the
run can always go on, unless it has come to a `return` or to the end of the function
(`Balanced.not_stuck`).
-/

namespace JackToolchain.VM

/-! ### What a command does to the stack -/

/-- How many operands an operation has. -/
def ArithOp.arity : ArithOp → Nat
  | neg | not => 1
  | add | sub | eq | gt | lt | and | or => 2

namespace Command

/-- How many operands a command pops. -/
def pops : Command → Nat
  | .push .. | .label _ | .goto _ | .function .. => 0
  | .pop .. | .ifGoto _ | .ret => 1
  | .arith op => op.arity
  | .call _ args => args.toNat

/-- How many operands a command pushes. -/
def pushes : Command → Nat
  | .push .. | .arith _ | .call .. => 1
  | .pop .. | .label _ | .goto _ | .ifGoto _ | .function .. | .ret => 0

/-- Whether the next command may be executed behind a command. -/
def fallsThrough : Command → Bool
  | .goto _ | .ret => false
  | .push .. | .pop .. | .arith _ | .label _ | .ifGoto _ | .function .. | .call .. => true

/-- Whether a command is a place where ways part or meet. -/
def isJoint : Command → Bool
  | .label _ | .goto _ | .ifGoto _ | .function .. | .ret => true
  | .push .. | .pop .. | .arith _ | .call .. => false

/-- How many operands there are behind a command, if there are enough before it.  A joint leaves
none. -/
def depthBehind (depth : Nat) (c : Command) : Option Nat :=
  if c.pops ≤ depth ∧ (c.isJoint → depth = c.pops) then some (depth - c.pops + c.pushes) else none

end Command

/-- How many operands there are behind commands that are passed one behind the other. -/
def depthBehind (depth : Nat) (commands : List Command) : Option Nat :=
  commands.foldlM Command.depthBehind depth

/-! ### Balanced functions -/

/-- The depth of the stack at each command of a function, and behind the last one. -/
structure Balanced (block : List Command) (depth : Nat → Nat) : Prop where
  head : ∃ name locals, block[0]? = some (.function name locals)
  /-- Nothing is on the stack behind the `function` command. -/
  begins : depth 1 = 0
  ends : depth block.length = 0
  enough : ∀ i c, block[i]? = some c → c.pops ≤ depth i
  falls : ∀ i c, block[i]? = some c → c.fallsThrough → depth (i + 1) = depth i - c.pops + c.pushes
  jumps : ∀ i c name j, block[i]? = some c → c.target? = some name →
    block[j]? = some (.label name) → depth j = depth i - c.pops
  labels : ∀ i name, block[i]? = some (.label name) → depth i = 0
  gotos : ∀ i name, block[i]? = some (.goto name) → depth i = 0
  returns : ∀ i, block[i]? = some .ret → depth i = 1

/-- The commands of a stretch find their operands above what is on the stack where the stretch
begins, and leave one word above that. -/
structure Rises (depth : Nat → Nat) (place : Nat) (stretch : List Command) : Prop where
  above : ∀ i c, stretch[i]? = some c → depth place + c.pops ≤ depth (place + i)
  leaves : depth (place + stretch.length) = depth place + 1

/-! ### Walks -/

section
variable {c : Command} {block stretch xs ys : List Command} {depth i m n : Nat}

theorem Command.depthBehind_eq_some (h : c.depthBehind m = some n) :
    c.pops ≤ m ∧ (c.isJoint → m = c.pops) ∧ n = m - c.pops + c.pushes := by
  unfold depthBehind at h
  split at h
  · next hc => exact ⟨hc.1, hc.2, (Option.some.inj h).symm⟩
  · cases h

/-- A command that may jump is a joint and pushes nothing. -/
theorem Command.of_target {name : String} (h : c.target? = some name) :
    c.isJoint = true ∧ c.pushes = 0 := by
  cases c with
  | goto | ifGoto => exact ⟨rfl, rfl⟩
  | push | pop | arith | label | function | call | ret => cases h

theorem depthBehind_cons :
    depthBehind depth (c :: xs) = (c.depthBehind depth).bind (depthBehind · xs) :=
  List.foldlM_cons

theorem depthBehind_append :
    depthBehind depth (xs ++ ys) = (depthBehind depth xs).bind (depthBehind · ys) :=
  List.foldlM_append

/-- How many operands there are at a command of a function. -/
def depthAt (block : List Command) (i : Nat) : Nat := (depthBehind 0 (block.take i)).getD 0

theorem depthBehind_take (h : depthBehind 0 block = some n) (i : Nat) :
    depthBehind 0 (block.take i) = some (depthAt block i) := by
  unfold depthAt
  rw [← List.take_append_drop i block, depthBehind_append] at h
  obtain ⟨k, hk, -⟩ := Option.bind_eq_some_iff.mp h
  rw [hk]
  rfl

theorem depthBehind_depthAt (h : depthBehind 0 block = some n) (hc : block[i]? = some c) :
    c.depthBehind (depthAt block i) = some (depthAt block (i + 1)) := by
  have hnext := depthBehind_take h (i + 1)
  rw [List.take_add_one, hc, depthBehind_append, depthBehind_take h i] at hnext
  obtain ⟨k, hk, hk'⟩ := Option.bind_eq_some_iff.mp hnext
  cases hk
  rw [Option.toList_some, depthBehind_cons] at hk'
  obtain ⟨k, hk, hk'⟩ := Option.bind_eq_some_iff.mp hk'
  cases hk'
  exact hk

/-- **A function that passes the walk is balanced.** -/
theorem balanced_of_depthBehind {name : String} {locals : Word}
    (h : depthBehind 0 (.function name locals :: block) = some 0) :
    Balanced (.function name locals :: block) (depthAt (.function name locals :: block)) := by
  generalize hwhole : Command.function name locals :: block = whole at h
  have hhead : whole[0]? = some (.function name locals) := hwhole ▸ rfl
  have hat {i : Nat} {c : Command} (hc : whole[i]? = some c) :=
    Command.depthBehind_eq_some (depthBehind_depthAt h hc)
  refine
    { head := ⟨name, locals, hhead⟩
      begins := ?_
      ends := ?_
      enough := fun i c hc => (hat hc).1
      falls := fun i c hc _ => (hat hc).2.2
      jumps := ?_
      labels := fun i target hc => (hat hc).2.1 rfl
      gotos := fun i target hc => (hat hc).2.1 rfl
      returns := fun i hc => (hat hc).2.1 rfl }
  · obtain ⟨-, hleft, hbehind⟩ := hat hhead
    rw [hleft rfl] at hbehind
    exact hbehind
  · have hend := depthBehind_take h whole.length
    rw [List.take_length, h] at hend
    exact (Option.some.inj hend).symm
  · intro i c target j hc htarget hj
    have hleft : depthAt whole i = c.pops := (hat hc).2.1 (Command.of_target htarget).1
    have hlabel : depthAt whole j = 0 := (hat hj).2.1 rfl
    rw [hlabel, hleft, Nat.sub_self]

/-- Where a stretch of a balanced function can be walked on its own, from the depth `m` to the depth
`n`, it never touches what is deeper than that. -/
theorem Balanced.depth_of_stretch {d : Nat → Nat} (hb : Balanced block d) {place below : Nat}
    (hstraight : ∀ c ∈ stretch, c.fallsThrough) (hplaced : PlacedAt block place stretch)
    (hwalk : depthBehind m stretch = some n) (hdepth : d place = below + m) :
    (∀ i c, stretch[i]? = some c → below + c.pops ≤ d (place + i)) ∧
      d (place + stretch.length) = below + n := by
  induction stretch generalizing place m with
  | nil =>
    cases hwalk
    exact ⟨fun i c hc => absurd hc (by simp), hdepth⟩
  | cons c rest ih =>
    obtain ⟨hc, hrest⟩ := placedAt_cons.mp hplaced
    obtain ⟨hfalls, hstraight⟩ := List.forall_mem_cons.mp hstraight
    rw [depthBehind_cons] at hwalk
    obtain ⟨k, hk, hwalk⟩ := Option.bind_eq_some_iff.mp hwalk
    obtain ⟨hpops, -, rfl⟩ := Command.depthBehind_eq_some hk
    have hnext := hb.falls place c hc hfalls
    obtain ⟨habove, hleaves⟩ := ih hstraight hrest hwalk (by omega)
    refine ⟨fun i e he => ?_, ?_⟩
    · cases i with
      | zero =>
        cases he
        show below + c.pops ≤ d place
        omega
      | succ i =>
        rw [Nat.add_comm i 1, ← Nat.add_assoc]
        exact habove i e he
    · rw [List.length_cons, Nat.add_comm rest.length 1, ← Nat.add_assoc]
      exact hleaves

theorem Balanced.rises {d : Nat → Nat} (hb : Balanced block d) {place : Nat}
    (hstraight : ∀ c ∈ stretch, c.fallsThrough) (hwalk : depthBehind 0 stretch = some 1)
    (hplaced : PlacedAt block place stretch) : Rises d place stretch := by
  obtain ⟨habove, hleaves⟩ := hb.depth_of_stretch hstraight hplaced hwalk rfl
  exact ⟨habove, hleaves⟩

end

/-! ### Runs -/

/-- An operation has a result if there are enough operands, and leaves it in their place. -/
theorem ArithOp.apply_of_arity_le {op : ArithOp} {stack : List Word} (h : op.arity ≤ stack.length) :
    ∃ v, op.apply stack = some (v :: stack.drop op.arity) := by
  cases op with
  | neg | not =>
    obtain _ | ⟨x, rest⟩ := stack
    · cases h
    · exact ⟨_, rfl⟩
  | add | sub | eq | gt | lt | and | or =>
    obtain _ | ⟨y, _ | ⟨x, rest⟩⟩ := stack
    · cases h
    · cases h with | step h => cases h
    · exact ⟨_, rfl⟩

theorem Machine.stack_of_write {m m' : Machine} {segment : Segment} {index v : Word}
    (h : m.write segment index v = some m') : m'.stack = m.stack := by
  unfold write at h
  split at h
  · cases h
  all_goals grind

theorem getElem?_of_labelPlace {code : List Command} {name : String} {place : Nat}
    (h : labelPlace code name = some place) : code[place]? = some (.label name) := by
  obtain ⟨hlt, hlabel, -⟩ := List.idxOf?_eq_some_iff.mp h
  rw [List.getElem?_eq_getElem hlt, hlabel]

/-- A label that is declared has a place. -/
theorem exists_labelPlace {code : List Command} {name : String} (h : .label name ∈ code) :
    ∃ place, labelPlace code name = some place :=
  Option.isSome_iff_exists.mp (List.isSome_idxOf?.mpr h)

theorem eq_zero_or_one_of_holds {index : Word} (h : Segment.pointer.Holds index) :
    index = 0 ∨ index = 1 := by
  unfold Segment.Holds Hack.pointerSize at h
  bv_omega

theorem Machine.exists_read (m : Machine) {segment : Segment} {index : Word}
    (h : segment.Holds index) : ∃ v, m.read segment index = some v := by
  cases segment with
  | constant | argument | locals | statics | this | that => exact ⟨_, rfl⟩
  | pointer => rcases eq_zero_or_one_of_holds h with rfl | rfl <;> exact ⟨_, rfl⟩
  | temp => exact ⟨_, if_pos h⟩

theorem Machine.exists_write (m : Machine) {segment : Segment} {index : Word} (v : Word)
    (hconstant : segment ≠ .constant) (h : segment.Holds index) :
    ∃ m', m.write segment index v = some m' := by
  cases segment with
  | constant => exact absurd rfl hconstant
  | argument | locals | statics | this | that => exact ⟨_, rfl⟩
  | pointer => rcases eq_zero_or_one_of_holds h with rfl | rfl <;> exact ⟨_, rfl⟩
  | temp => exact ⟨_, if_pos h⟩

section
variable {env : Environment} {block : List Command} {command : Command} {place : Nat} {m : Machine}
  {d e : Config}

/-- What a command leaves on the stack and where it leads. -/
theorem operands_of_execute (h : execute env block place m command = some d)
    (hpops : command.pops ≤ m.stack.length) :
    ∃ pushed : List Word, pushed.length = command.pushes ∧
      d.machine.stack = pushed ++ m.stack.drop command.pops ∧
      (command.fallsThrough ∧ d.place = place + 1 ∨
        ∃ name, command.target? = some name ∧ block[d.place]? = some (.label name)) := by
  cases command with
  | push segment index =>
    obtain ⟨v, -, rfl⟩ := Option.map_eq_some_iff.mp h
    exact ⟨[v], rfl, rfl, .inl ⟨rfl, rfl⟩⟩
  | pop segment index =>
    obtain ⟨v, rest, hstack⟩ := List.exists_cons_of_length_pos hpops
    simp only [execute, hstack] at h
    obtain ⟨m', hwrite, rfl⟩ := Option.map_eq_some_iff.mp h
    rw [hstack]
    exact ⟨[], rfl, Machine.stack_of_write hwrite, .inl ⟨rfl, rfl⟩⟩
  | arith op =>
    obtain ⟨v, hv⟩ := ArithOp.apply_of_arity_le hpops
    obtain ⟨stack, hstack, rfl⟩ := Option.map_eq_some_iff.mp h
    rw [hv] at hstack
    cases hstack
    exact ⟨[v], rfl, rfl, .inl ⟨rfl, rfl⟩⟩
  | label name =>
    cases h
    exact ⟨[], rfl, rfl, .inl ⟨rfl, rfl⟩⟩
  | goto name =>
    obtain ⟨target, htarget, rfl⟩ := Option.map_eq_some_iff.mp h
    exact ⟨[], rfl, rfl, .inr ⟨name, rfl, getElem?_of_labelPlace htarget⟩⟩
  | ifGoto name =>
    obtain ⟨v, rest, hstack⟩ := List.exists_cons_of_length_pos hpops
    simp only [execute, hstack] at h
    rw [hstack]
    by_cases hv : v = 0
    · rw [if_pos hv] at h
      cases h
      exact ⟨[], rfl, rfl, .inl ⟨rfl, rfl⟩⟩
    · rw [if_neg hv] at h
      obtain ⟨target, htarget, rfl⟩ := Option.map_eq_some_iff.mp h
      exact ⟨[], rfl, rfl, .inr ⟨name, rfl, getElem?_of_labelPlace htarget⟩⟩
  | function name locals => cases h
  | call name args =>
    simp only [execute] at h
    split at h
    · cases h
      exact ⟨[_], rfl, rfl, .inl ⟨rfl, rfl⟩⟩
    · cases h
  | ret => cases h

/-- A command that finds its operands, its cell and its target can be executed. -/
theorem exists_execute (hpops : command.pops ≤ m.stack.length)
    (htranslatable : command.Translatable)
    (htarget : ∀ name, command.target? = some name → .label name ∈ block)
    (hfunction : ∀ name locals, command ≠ .function name locals) (hret : command ≠ .ret) :
    ∃ d, execute env block place m command = some d := by
  cases command with
  | push segment index =>
    obtain ⟨v, hread⟩ := m.exists_read htranslatable
    exact ⟨_, Option.map_eq_some_iff.mpr ⟨v, hread, rfl⟩⟩
  | pop segment index =>
    obtain ⟨v, rest, hstack⟩ := List.exists_cons_of_length_pos hpops
    obtain ⟨m', hwrite⟩ :=
      Machine.exists_write { m with stack := rest } v htranslatable.1 htranslatable.2
    refine ⟨⟨place + 1, m'⟩, ?_⟩
    simp only [execute, hstack]
    exact Option.map_eq_some_iff.mpr ⟨m', hwrite, rfl⟩
  | arith op =>
    obtain ⟨v, happly⟩ := ArithOp.apply_of_arity_le hpops
    exact ⟨_, Option.map_eq_some_iff.mpr ⟨_, happly, rfl⟩⟩
  | label name => exact ⟨_, rfl⟩
  | goto name =>
    obtain ⟨target, hplace⟩ := exists_labelPlace (htarget name rfl)
    exact ⟨_, Option.map_eq_some_iff.mpr ⟨target, hplace, rfl⟩⟩
  | ifGoto name =>
    obtain ⟨v, rest, hstack⟩ := List.exists_cons_of_length_pos hpops
    obtain ⟨target, hplace⟩ := exists_labelPlace (htarget name rfl)
    simp only [execute, hstack, hplace]
    split <;> exact ⟨_, rfl⟩
  | function name locals => exact absurd rfl (hfunction name locals)
  | call name args => exact ⟨_, if_pos hpops⟩
  | ret => exact absurd rfl hret

/-- A run stands at a command of a function or at its end, and has as many operands above the stack
of the caller as the depth there says. -/
structure Stands (block : List Command) (depth : Nat → Nat) (caller : List Word) (c : Config) :
    Prop where
  pos : 0 < c.place
  le : c.place ≤ block.length
  operands : ∃ own, c.machine.stack = own ++ caller ∧ own.length = depth c.place

namespace Balanced

variable {depth : Nat → Nat} {caller : List Word}

theorem stands_of_step (hb : Balanced block depth) (hd : Stands block depth caller d)
    (hstep : step env block d = some e) : Stands block depth caller e := by
  obtain ⟨command, hcommand, hexecute⟩ := Option.bind_eq_some_iff.mp hstep
  obtain ⟨own, hstack, hown⟩ := hd.operands
  have henough : command.pops ≤ own.length := hown ▸ hb.enough _ _ hcommand
  obtain ⟨pushed, hpushed, hstack', hplace⟩ := operands_of_execute hexecute (by
    rw [hstack, List.length_append]
    omega)
  have hoperands : e.machine.stack = pushed ++ own.drop command.pops ++ caller := by
    rw [hstack', hstack, List.drop_append_of_le_length henough, List.append_assoc]
  have hlength : (pushed ++ own.drop command.pops).length = depth d.place - command.pops +
      command.pushes := by
    rw [List.length_append, List.length_drop, hpushed, hown, Nat.add_comm]
  rcases hplace with ⟨hfalls, hplace⟩ | ⟨name, htarget, hlabel⟩
  · have hlt : d.place < block.length := (List.getElem?_eq_some_iff.mp hcommand).1
    refine ⟨by omega, by omega, _, hoperands, ?_⟩
    rw [hlength, hplace, hb.falls _ _ hcommand hfalls]
  · have hlt : e.place < block.length := (List.getElem?_eq_some_iff.mp hlabel).1
    refine ⟨Nat.pos_of_ne_zero fun hzero => ?_, hlt.le, _, hoperands, ?_⟩
    · obtain ⟨_, _, hhead⟩ := hb.head
      rw [hzero, hhead] at hlabel
      cases hlabel
    · rw [hlength, (Command.of_target htarget).2, hb.jumps _ _ _ _ hcommand htarget hlabel,
        Nat.add_zero]

/-- **What has been counted is what is there.**  Wherever a run of a balanced function leads, the
stack is what it was at first, with as many operands on top of it as the depth says. -/
theorem stands_of_reaches (hb : Balanced block depth) (h : Reaches env block ⟨1, m⟩ d) :
    Stands block depth m.stack d := by
  induction h with
  | refl =>
    obtain ⟨_, _, hhead⟩ := hb.head
    exact ⟨Nat.one_pos, (List.getElem?_eq_some_iff.mp hhead).1, [], rfl, hb.begins.symm⟩
  | tail _ hstep ih => exact hb.stands_of_step ih hstep

/-- **A balanced function does not get stuck.**  A run can go on from wherever it leads, except from
a `return` and from the end of the function. -/
theorem not_stuck (hb : Balanced block depth) (h : Reaches env block ⟨1, m⟩ d)
    (hfunction : ∀ c ∈ block.tail, ∀ name locals, c ≠ .function name locals)
    (htranslatable : ∀ c ∈ block, c.Translatable)
    (htargets : jumpTargets block ⊆ declaredLabels block) :
    (∃ e, step env block d = some e) ∨ block[d.place]? = some .ret ∨ d.place = block.length := by
  obtain ⟨hpos, hle, own, hstack, hown⟩ := hb.stands_of_reaches h
  rcases hle.lt_or_eq with hlt | heq
  · obtain ⟨command, hcommand⟩ : ∃ command, block[d.place]? = some command :=
      ⟨_, List.getElem?_eq_getElem hlt⟩
    by_cases hret : command = .ret
    · exact .inr (.inl (hret ▸ hcommand))
    · have hmem : command ∈ block := List.mem_of_getElem? hcommand
      have htail : command ∈ block.tail := by
        rw [← Nat.sub_add_cancel hpos, ← List.getElem?_tail] at hcommand
        exact List.mem_of_getElem? hcommand
      have hpops : command.pops ≤ d.machine.stack.length := by
        have henough := hb.enough _ _ hcommand
        rw [hstack, List.length_append]
        omega
      have htarget : ∀ name, command.target? = some name → .label name ∈ block := fun name hname =>
        mem_declaredLabels.mp (htargets (List.mem_filterMap.mpr ⟨command, hmem, hname⟩))
      obtain ⟨e, he⟩ := exists_execute hpops (htranslatable _ hmem) htarget (hfunction _ htail) hret
      exact .inl ⟨e, Option.bind_eq_some_iff.mpr ⟨command, hcommand, he⟩⟩
  · exact .inr (.inr heq)

end Balanced

end

end JackToolchain.VM
