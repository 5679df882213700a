import JackToolchain.Proofs.Hack.FirstPass

/-!
# Assembled programs

The second pass gives addresses to the symbols that have none yet, and an address that a symbol has
is not changed any more.  So there is one address for each symbol, and the words of a program are
the words of its lines at these addresses (`Program.toList_resolve`).

For a program that has been printed, `Assembled` says all that is needed of the assembler: the words
are those of the lines, predefined symbols have their addresses, a label stands for the number of
words in front of it, and no constant is out of range.
-/

namespace JackToolchain.Hack

namespace Program

/-! ### Addresses -/

/-- The symbols behind instructions, where the next variable gets the address `free`. -/
def symbolsFrom (symbols : Std.HashMap String Word) (free : Word) :
    List Statement → Std.HashMap String Word
  | [] => symbols
  | .load (.symbol name) :: rest =>
    match symbols[name]? with
    | some _ => symbolsFrom symbols free rest
    | none => symbolsFrom (symbols.insert name free) (free + 1) rest
  | _ :: rest => symbolsFrom symbols free rest

/-- The address of a symbol of a program. -/
def address (p : Program) (name : String) : Word :=
  (symbolsFrom p.symbols variableStart p.instructions.toList)[name]?.getD 0

section
variable {symbols : Std.HashMap String Word} {free a : Word} {ss : List Statement} {name : String}

/-- An address that a symbol has is kept. -/
theorem symbolsFrom_of_some (h : symbols[name]? = some a) :
    (symbolsFrom symbols free ss)[name]? = some a := by
  fun_induction symbolsFrom symbols free ss with
  | case1 => exact h
  | case2 symbols free name' rest _ _ ih => exact ih h
  | case3 symbols free name' rest hfree ih =>
    refine ih ?_
    have hne : name' ≠ name := by
      rintro rfl
      rw [hfree] at h
      cases h
    rwa [Std.HashMap.getElem?_insert, if_neg (by simpa using hne)]
  | case4 symbols free s rest _ ih => exact ih h

/-- The second pass writes the words of instructions, for addresses that the symbols have behind
it. -/
theorem toList_resolveFrom {address : String → Word} {done : Array Word}
    (h : ∀ name a, (symbolsFrom symbols free ss)[name]? = some a → address name = a) :
    (resolveFrom symbols free done ss).toList =
      done.toList ++ wordsOf address (ss.map .statement) := by
  induction ss generalizing symbols free done with
  | nil => exact (List.append_nil _).symm
  | cons s ss ih =>
    rw [List.map_cons, wordsOf_cons]
    match s with
    | .label name => exact ih h
    | .compute i =>
      rw [resolveFrom, ih h, Array.toList_push, List.append_assoc]
      rfl
    | .load (.constant n) =>
      rw [resolveFrom, ih h, Array.toList_push, List.append_assoc]
      rfl
    | .load (.symbol name) =>
      rw [resolveFrom]
      rw [symbolsFrom] at h
      cases hname : symbols[name]? with
      | some a =>
        rw [hname] at h
        have ha : address name = a := h name a (symbolsFrom_of_some hname)
        dsimp only
        rw [ih h, Array.toList_push, List.append_assoc, ← ha]
        rfl
      | none =>
        rw [hname] at h
        have ha : address name = free :=
          h name free (symbolsFrom_of_some Std.HashMap.getElem?_insert_self)
        dsimp only
        rw [ih h, Array.toList_push, List.append_assoc, ← ha]
        rfl

end

/-- **The words of a program** are the words of its instructions at the addresses of its symbols. -/
theorem toList_resolve (p : Program) :
    p.resolve.toList = wordsOf p.address (p.instructions.toList.map .statement) := by
  refine toList_resolveFrom (fun name a h => ?_)
  unfold address
  rw [h]
  rfl

theorem address_of_symbol {p : Program} {name : String} {a : Word} (h : p.symbols[name]? = some a) :
    p.address name = a := by
  unfold address
  rw [symbolsFrom_of_some h]
  rfl

end Program

/-! ### Printed programs -/

/-- The address of a symbol of a source. -/
def addressIn (source : String) (name : String) : Word :=
  match Program.ofSource source with
  | .ok p => p.address name
  | .error _ => 0

theorem distinct_predefinedSymbols :
    predefinedSymbols.Pairwise fun x y => (x.1 == y.1) = false := by
  decide

/-- What the words of lines are, when the symbols have the given addresses. -/
structure Assembled (lines : List Line) (rom : List Word) (address : String → Word) : Prop where
  words : rom = wordsOf address lines
  predefined : ∀ p ∈ predefinedSymbols, address p.1 = p.2
  label : ∀ front name behind, lines = front ++ .statement (.label name) :: behind →
    address name = BitVec.ofNat 16 (wordCount front)
  constant : ∀ n, .statement (.load (.constant n)) ∈ lines → n ≤ maxConstant

/-- **What a printed program is assembled to.** -/
theorem assembled_of_assemble {lines : List Line} {rom : Array Word}
    (hlines : ∀ l ∈ lines, l.Printable) (h : assemble (linesText lines) = .ok rom) :
    Assembled lines rom.toList (addressIn (linesText lines)) := by
  have hpass := Program.ofSource_linesText hlines
  cases hp : Program.ofSource (linesText lines) with
  | error e =>
    unfold assemble assembleWithRecords at h
    rw [hp] at h
    cases h
  | ok p =>
    have haddress : addressIn (linesText lines) = p.address := by
      funext name
      unfold addressIn
      rw [hp]
    have hrom : rom = p.resolve := by
      unfold assemble assembleWithRecords at h
      rw [hp] at h
      exact (Except.ok.inj h).symm
    rw [hp] at hpass
    replace hpass : Program.addAll {} lines = some p := hpass.symm
    rw [haddress, hrom]
    refine ⟨?_, fun s hs => ?_, fun front name behind heq => ?_,
      fun n hn => Program.inRange_of_addAll hpass hn⟩
    · rw [Program.toList_resolve, Program.wordsOf_of_addAll hpass]
      rfl
    · exact Program.address_of_symbol (Program.symbols_of_addAll hpass
        (Std.HashMap.getElem?_ofList_of_mem (beq_self_eq_true _) distinct_predefinedSymbols hs))
    · rw [heq] at hpass
      have hlabel := Program.label_of_addAll hpass
      rw [Program.address_of_symbol hlabel]
      congr 1
      exact Nat.zero_add _

/-- Printed lines are assembled if their labels are distinct and not predefined and their constants
in range. -/
theorem exists_assemble {lines : List Line} (hlines : ∀ l ∈ lines, l.Printable)
    (hrange : ∀ n ∈ lines.filterMap Line.constant?, n ≤ maxConstant)
    (hdistinct : (lines.filterMap Line.label?).Nodup)
    (hnew : ∀ name ∈ lines.filterMap Line.label?, name ∉ predefinedSymbols.map Prod.fst) :
    ∃ rom, assemble (linesText lines) = .ok rom := by
  obtain ⟨p, hp⟩ := Program.exists_addAll (p := {}) hrange hdistinct fun name hname => by
    refine Std.HashMap.getElem?_ofList_of_contains_eq_false ?_
    simpa using hnew name hname
  have hpass := Program.ofSource_linesText hlines
  rw [hp] at hpass
  unfold assemble assembleWithRecords
  cases hsource : Program.ofSource (linesText lines) with
  | error e =>
    rw [hsource] at hpass
    cases hpass
  | ok p' => exact ⟨_, rfl⟩

/-- Printed lines whose labels are distinct and not predefined are assembled if and only if their
constants are in range. -/
theorem exists_assemble_iff {lines : List Line} (hlines : ∀ l ∈ lines, l.Printable)
    (hdistinct : (lines.filterMap Line.label?).Nodup)
    (hnew : ∀ name ∈ lines.filterMap Line.label?, name ∉ predefinedSymbols.map Prod.fst) :
    (∃ rom, assemble (linesText lines) = .ok rom) ↔ ∀ n ∈ lines.filterMap Line.constant?,
      n ≤ maxConstant := by
  constructor
  · rintro ⟨rom, h⟩ n hn
    obtain ⟨l, hl, hconstant⟩ := List.mem_filterMap.mp hn
    refine (assembled_of_assemble hlines h).constant n ?_
    unfold Line.constant? at hconstant
    split at hconstant <;> cases hconstant
    exact hl
  · intro hrange
    exact exists_assemble hlines hrange hdistinct hnew

namespace Assembled

variable {lines front block behind : List Line} {rom : List Word} {address : String → Word}

/-- The words of a stretch of lines are placed behind those of the lines in front of it. -/
theorem placed (h : Assembled lines rom address) (hlines : lines = front ++ block ++ behind) :
    PlacedAt rom (wordCount front) (wordsOf address block) := by
  rw [h.words, hlines, wordsOf_append, wordsOf_append, ← length_wordsOf]
  exact placedAt_middle _ _ _

/-- A label stands for its place in the program, where addresses do not wrap. -/
theorem toNat_label {name : String} (h : Assembled lines rom address)
    (hsize : rom.length ≤ maxConstant)
    (hlines : lines = front ++ .statement (.label name) :: behind) :
    (address name).toNat = wordCount front := by
  have hfront : wordCount front ≤ rom.length := by
    rw [h.words, length_wordsOf, hlines, wordCount_append]
    exact Nat.le_add_right _ _
  rw [h.label front name behind hlines, BitVec.toNat_ofNat]
  unfold maxConstant at hsize
  omega

end Assembled

end JackToolchain.Hack
