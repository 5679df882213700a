import JackToolchain.Proofs.VM.Blocks

/-!
# Blocks with jumps

A block with jumps is followed from one straight stretch to the next.  Where a label stands is known
from the program that the block is a part of, so these facts are about blocks at their places in an
assembled program.
-/

namespace JackToolchain.VM

open Hack Block

/-! ### Stretches at their places -/

section
variable {address : String → Word} {rom : List Word} {start : Nat} {m m' : Memory} {a d : Word}
  {block : List Line}

theorem runs_of_executes (hplaced : PlacedAt rom start (wordsOf address block))
    (h : Executes address block m m') :
    ∃ a' d', Cpu.Runs rom start (start + wordCount block) ⟨⟨m, a, d⟩, start⟩
      ⟨⟨m', a', d'⟩, start + wordCount block⟩ := by
  obtain ⟨⟨m₁, a', d'⟩, hexecute, hm⟩ := Option.map_eq_some_iff.mp (h a d)
  replace hm : m₁ = m' := hm
  subst hm
  exact ⟨a', d', Cpu.runs_of_executeAll block hplaced hexecute⟩

/-- A jump to a symbol. -/
theorem runs_jumpTo {symbol : String} {comp : Comp} {j : Jump}
    (hplaced : PlacedAt rom start (wordsOf address [load symbol, jump comp j]))
    (hcomp : comp.readsM = false) (hsymbol : (address symbol).toNat ≤ maxConstant) :
    Cpu.Runs rom start (start + 2) ⟨⟨m, a, d⟩, start⟩
      ⟨⟨m, address symbol, d⟩,
        if j.Holds (comp.value d (address symbol) (m (address symbol))) then (address symbol).toNat
        else start + 2⟩ := by
  rw [wordsOf_cons, placedAt_append] at hplaced
  obtain ⟨hload, hjump⟩ := hplaced
  have hfirst := Cpu.runs_of_line (c := ⟨m, a, d⟩) hload (if_pos hsymbol)
  have hsecond :=
    Cpu.runs_of_jump (c := ⟨m, address symbol, d⟩) (i := { comp, jump := some j }) hjump
    (fun h => absurd h (by simp [hcomp]))
  refine (hfirst.mono le_rfl (Nat.le_succ _)).trans ?_
  simp only [Option.mem_some_iff, exists_eq_left'] at hsecond
  exact hsecond.mono (Nat.le_succ _) le_rfl

end

/-! ### Comparisons -/

section
variable {c : Context} {j : Jump} {address : String → Word} {rom : List Word} {start : Nat}
  {m : Memory} {a d : Word}

/-- The two words on top are taken from the stack, and their difference is in `D`. -/
def takeDifference : List Line := popD ++ popCell ++ [set toD .mMinusD]

theorem executeAll_takeDifference (h : Predefined address) (htop : InStack (m 0 - 1))
    (hnext : InStack (m 0 - 2)) : executeAll address takeDifference ⟨m, a, d⟩ =
      some ⟨popped (popped m), m 0 - 2, m (m 0 - 2) - m (m 0 - 1)⟩ := by
  have hcell : topCell (popped m) = m 0 - 2 := by
    rw [topCell, popped_zero, sub_sub]
    rfl
  unfold takeDifference
  rw [List.append_assoc, executeAll_popD h htop, executeAll_popCell h, hcell,
    executeAll_toD (.inr hnext.2)]
  simp only [Comp.value]
  rw [popped_of_ne (hnext.ne (by decide)), popped_of_ne (hnext.ne (by decide))]
  rfl

theorem compareBlock_eq :
    c.compareBlock j =
      takeDifference ++ [load c.trueLabel, jump .d j] ++ [set toD .zero]
        ++ [load c.endLabel, jump .zero .always]
        ++ [Block.label c.trueLabel, set toD .minusOne] ++ (Block.label c.endLabel :: pushD) := rfl

theorem wordCount_takeDifference : wordCount takeDifference = 6 := by
  simp [takeDifference, popD, popCell]

theorem wordCount_compareBlock : wordCount (c.compareBlock j) = 17 := by
  simp [compareBlock_eq, wordCount_takeDifference, pushD]

/-- A word pushed in the place of the two that have been popped. -/
theorem pushed_popped_popped {v : Word} (hnext : InStack (m 0 - 2)) :
    pushed (popped (popped m)) v = Function.update (Function.update m 0 (m 0 - 1)) (m 0 - 2) v := by
  have hpointer : popped (popped m) 0 = m 0 - 2 := by
    rw [popped_zero, popped_zero, sub_sub]
    rfl
  have hsucc : m 0 - 2 + 1 = m 0 - 1 := by
    rw [sub_add]
    rfl
  have hzero : (0 : Word) ≠ m 0 - 2 := (hnext.ne (by decide)).symm
  unfold pushed
  rw [hpointer, hsucc]
  funext x
  by_cases hx : x = 0
  · subst hx
    rw [Function.update_self, Function.update_of_ne hzero, Function.update_self]
  · rw [Function.update_of_ne hx]
    by_cases hx' : x = m 0 - 2
    · rw [hx', Function.update_self, Function.update_self]
    · rw [Function.update_of_ne hx', Function.update_of_ne hx', Function.update_of_ne hx,
        popped_of_ne hx, popped_of_ne hx]

/-- **A comparison** leaves all ones or zero in the place of the two words. -/
theorem runs_compareBlock (h : Predefined address)
    (hplaced : PlacedAt rom start (wordsOf address (c.compareBlock j)))
    (htrue : (address c.trueLabel).toNat = start + 11)
    (hend : (address c.endLabel).toNat = start + 12) (hsize : start + 12 ≤ maxConstant)
    (htop : InStack (m 0 - 1)) (hnext : InStack (m 0 - 2)) :
    ∃ a' d', Cpu.Runs rom start (start + 17) ⟨⟨m, a, d⟩, start⟩
      ⟨⟨Function.update (Function.update m 0 (m 0 - 1)) (m 0 - 2)
        (if j.Holds (m (m 0 - 2) - m (m 0 - 1)) then -1 else 0), a', d'⟩, start + 17⟩ := by
  rw [compareBlock_eq] at hplaced
  simp only [wordsOf_append, placedAt_append, List.length_append, length_wordsOf] at hplaced
  obtain ⟨⟨⟨⟨⟨htake, hbranch⟩, hzero⟩, hgoto⟩, hminus⟩, hpush⟩ := hplaced
  have hpointer : InStack (popped (popped m) 0) := by
    rw [popped_zero, popped_zero, sub_sub]
    exact hnext
  generalize hx : m (m 0 - 2) - m (m 0 - 1) = x
  generalize hm' : popped (popped m) = m' at hpointer
  rw [← pushed_popped_popped hnext, hm']
  have hdifference : Cpu.Runs rom start (start + 6) ⟨⟨m, a, d⟩, start⟩ ⟨⟨m', m 0 - 2, x⟩,
      start + 6⟩ := by
    rw [← hx, ← hm']
    exact Cpu.runs_of_executeAll takeDifference htake (executeAll_takeDifference h htop hnext)
  have hjump : Cpu.Runs rom (start + 6) (start + 8) ⟨⟨m', m 0 - 2, x⟩, start + 6⟩
      ⟨⟨m', address c.trueLabel, x⟩, if j.Holds x then start + 11 else start + 8⟩ := by
    rw [← htrue]
    exact runs_jumpTo hbranch rfl (by omega)
  -- Both ways end at the label in front of the push.
  have hlast (a v : Word) : Cpu.Runs rom (start + 12) (start + 17) ⟨⟨m', a, v⟩, start + 12⟩
      ⟨⟨pushed m' v, 0, v⟩, start + 17⟩ := by
    refine Cpu.runs_of_executeAll (Block.label c.endLabel :: pushD) hpush ?_
    rw [executeAll_label, ← List.append_nil pushD, executeAll_pushD h hpointer]
    rfl
  by_cases hholds : j.Holds x
  · have hset : Cpu.Runs rom (start + 11) (start + 12) ⟨⟨m', address c.trueLabel, x⟩, start + 11⟩
        ⟨⟨m', address c.trueLabel, -1⟩, start + 12⟩ := by
      refine Cpu.runs_of_executeAll [Block.label c.trueLabel, set toD .minusOne] hminus ?_
      rw [executeAll_label, executeAll_toD (.inl rfl)]
      rfl
    rw [if_pos hholds] at hjump ⊢
    exact ⟨_, _,
      (hdifference.mono le_rfl (by omega)).trans ((hjump.mono (by omega) (by omega)).trans
      ((hset.mono (by omega) (by omega)).trans ((hlast _ _).mono (by omega) le_rfl)))⟩
  · have hset : Cpu.Runs rom (start + 8) (start + 9) ⟨⟨m', address c.trueLabel, x⟩, start + 8⟩
        ⟨⟨m', address c.trueLabel, 0⟩, start + 9⟩ := by
      refine Cpu.runs_of_executeAll [set toD .zero] hzero ?_
      rw [executeAll_toD (.inl rfl)]
      rfl
    have hskip : Cpu.Runs rom (start + 9) (start + 11) ⟨⟨m', address c.trueLabel, 0⟩, start + 9⟩
        ⟨⟨m', address c.endLabel, 0⟩, start + 12⟩ := by
      rw [← hend]
      exact runs_jumpTo hgoto rfl (by omega)
    rw [if_neg hholds] at hjump ⊢
    exact ⟨_, _,
      (hdifference.mono le_rfl (by omega)).trans ((hjump.mono (by omega) (by omega)).trans
      ((hset.mono (by omega) (by omega)).trans ((hskip.mono (by omega) (by omega)).trans
        ((hlast _ _).mono (by omega) le_rfl))))⟩

end

/-! ### Jumps to labels of the program -/

section
variable {symbol : String} {address : String → Word} {rom : List Word} {start : Nat} {m : Memory}
  {a d : Word}

theorem runs_goto (hplaced : PlacedAt rom start (wordsOf address (Block.goto symbol)))
    (hsymbol : (address symbol).toNat ≤ maxConstant) :
    ∃ a' d',
      Cpu.Runs rom start (start + 2) ⟨⟨m, a, d⟩, start⟩ ⟨⟨m, a', d'⟩, (address symbol).toNat⟩ :=
  ⟨_, _, runs_jumpTo hplaced rfl hsymbol⟩

/-- A jump that is taken if the word popped is not zero. -/
theorem runs_ifGoto (h : Predefined address)
    (hplaced : PlacedAt rom start (wordsOf address (popD ++ [load symbol, jump .d .ne])))
    (hsymbol : (address symbol).toNat ≤ maxConstant) (htop : InStack (m 0 - 1)) :
    ∃ a' d', Cpu.Runs rom start (start + 5) ⟨⟨m, a, d⟩, start⟩
      ⟨⟨Function.update m 0 (m 0 - 1), a', d'⟩,
        if m (m 0 - 1) ≠ 0 then (address symbol).toNat else start + 5⟩ := by
  rw [wordsOf_append, placedAt_append, length_wordsOf] at hplaced
  obtain ⟨hpop, hjump⟩ := hplaced
  have hpopped : Cpu.Runs rom start (start + 3) ⟨⟨m, a, d⟩, start⟩ ⟨⟨popped m, topCell m, top m⟩,
      start + 3⟩ := by
    refine Cpu.runs_of_executeAll popD hpop ?_
    rw [← List.append_nil popD, executeAll_popD h htop]
    rfl
  have htaken : Cpu.Runs rom (start + 3) (start + 5) ⟨⟨popped m, topCell m, top m⟩, start + 3⟩
      ⟨⟨popped m, address symbol, top m⟩, if m (m 0 - 1) ≠ 0 then (address symbol).toNat
      else start + 5⟩ :=
    runs_jumpTo hjump rfl hsymbol
  exact ⟨_, _, (hpopped.mono le_rfl (by omega)).trans (htaken.mono (by omega) le_rfl)⟩

end

end JackToolchain.VM
