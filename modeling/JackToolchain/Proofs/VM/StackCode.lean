import JackToolchain.Proofs.Hack.Assembled
import JackToolchain.VM.Translator

/-!
# Executing stack code

The blocks of commands are put together from a few sequences of instructions, which push, pop and
copy words.  Here they are executed, one instruction after the other, under the assumption that the
predefined symbols have their addresses.  A sequence that uses the stack needs the cell it uses;
nothing is assumed of the other cells.
-/

namespace JackToolchain.VM

open Hack Block

/-! ### Memory -/

/-- A cell that the stack may use. -/
def InStack (a : Word) : Prop := 16 ≤ a.toNat ∧ a.toNat < memorySize

/-- Memory with a word pushed. -/
def pushed (m : Memory) (v : Word) : Memory :=
  Function.update (Function.update m (m 0) v) 0 (m 0 + 1)

/-- Memory with a word popped. -/
def popped (m : Memory) : Memory := Function.update m 0 (m 0 - 1)

/-- The cell of the word on top. -/
def topCell (m : Memory) : Word := m 0 - 1

/-- The word on top. -/
def top (m : Memory) : Word := m (topCell m)

/-- The predefined symbols have their addresses. -/
def Predefined (address : String → Word) : Prop := ∀ p ∈ predefinedSymbols, address p.1 = p.2

section
variable {m : Memory} {a x v : Word}

theorem InStack.ne (h : InStack a) (hx : x.toNat < 16) : a ≠ x := by
  rintro rfl
  have := h.1
  omega

theorem popped_of_ne (h : x ≠ 0) : popped m x = m x := Function.update_of_ne h _ _

theorem popped_zero : popped m 0 = m 0 - 1 := Function.update_self _ _ _

end

/-! ### Instructions -/

section
variable {symbol : String} {n : Nat} {dest : Dest} {comp : Comp} {j : Jump}

@[simp]
theorem wordCount_load : (load symbol).wordCount = 1 := rfl

@[simp]
theorem wordCount_loadConstant : (loadConstant n).wordCount = 1 := rfl

@[simp]
theorem wordCount_set : (set dest comp).wordCount = 1 := rfl

@[simp]
theorem wordCount_jump : (jump comp j).wordCount = 1 := rfl

@[simp]
theorem wordCount_label : (Block.label symbol).wordCount = 0 := rfl

end

section
variable {address : String → Word} {m : Memory} {a d w : Word} {ls : List Line}
  {comp : Comp} {c : Core}

theorem executeAll_load {symbol : String} (h : address symbol = w) (hw : w.toNat < memorySize) :
    executeAll address (load symbol :: ls) ⟨m, a, d⟩ = executeAll address ls ⟨m, w, d⟩ := by
  have hload : Line.execute address ⟨m, a, d⟩ (load symbol) = some ⟨m, w, d⟩ := by
    rw [← h]
    exact if_pos (by rw [h]; exact Nat.le_of_lt_succ hw)
  rw [executeAll, hload]
  rfl

theorem executeAll_loadConstant {n : Nat} (hn : n ≤ maxConstant) :
    executeAll address (loadConstant n :: ls) ⟨m, a, d⟩ =
      executeAll address ls ⟨m, BitVec.ofNat 16 n, d⟩ := by
  have hload : Line.execute address ⟨m, a, d⟩ (loadConstant n) = some ⟨m, BitVec.ofNat 16 n, d⟩ :=
    if_pos hn
  rw [executeAll, hload]
  rfl

theorem executeAll_set {dest : Dest} (h : ({ dest, comp } : Instruction).Allowed c) :
    executeAll address (set dest comp :: ls) c =
      executeAll address ls (({ dest, comp } : Instruction).apply c) := by
  have hset : Line.execute address c (set dest comp) =
      some (({ dest, comp } : Instruction).apply c) :=
    if_pos ⟨rfl, h⟩
  rw [executeAll, hset]
  rfl

/-- To compute an address. -/
theorem executeAll_toA (h : comp.readsM = false ∨ a.toNat < memorySize) :
    executeAll address (set toA comp :: ls) ⟨m, a, d⟩ =
      executeAll address ls ⟨m, comp.value d a (m a), d⟩ :=
  executeAll_set fun hm => h.resolve_left fun hfalse => by simp [hfalse, toA] at hm

theorem executeAll_toD (h : comp.readsM = false ∨ a.toNat < memorySize) :
    executeAll address (set toD comp :: ls) ⟨m, a, d⟩ =
      executeAll address ls ⟨m, a, comp.value d a (m a)⟩ :=
  executeAll_set fun hm => h.resolve_left fun hfalse => by simp [hfalse, toD] at hm

/-- To store to a cell. -/
theorem executeAll_toM (h : a.toNat < memorySize) :
    executeAll address (set toM comp :: ls) ⟨m, a, d⟩ =
      executeAll address ls ⟨Function.update m a (comp.value d a (m a)), a, d⟩ :=
  executeAll_set fun _ => h

theorem executeAll_toAM (h : a.toNat < memorySize) :
    executeAll address (set toAM comp :: ls) ⟨m, a, d⟩ =
      executeAll address ls ⟨Function.update m a (comp.value d a (m a)), comp.value d a (m a), d⟩ :=
  executeAll_set fun _ => h

theorem executeAll_label {name : String} :
    executeAll address (Block.label name :: ls) c = executeAll address ls c := rfl

end

/-! ### Sequences -/

section
variable {address : String → Word} {m : Memory} {a d w : Word} {symbol : String} {ls : List Line}

/-- The stack pointer is loaded. -/
theorem executeAll_loadSP (h : Predefined address) :
    executeAll address (load "SP" :: ls) ⟨m, a, d⟩ = executeAll address ls ⟨m, 0, d⟩ :=
  executeAll_load (h ("SP", 0) (by decide)) (by decide)

theorem executeAll_pushD (h : Predefined address) (hsp : InStack (m 0)) :
    executeAll address (pushD ++ ls) ⟨m, a, d⟩ = executeAll address ls ⟨pushed m d, 0, d⟩ := by
  have hne : (0 : Word) ≠ m 0 := (hsp.ne (by decide)).symm
  unfold pushD
  simp only [List.cons_append, List.nil_append]
  rw [executeAll_loadSP h, executeAll_toA (.inr (by decide))]
  dsimp only [Comp.value]
  rw [executeAll_toM hsp.2, executeAll_loadSP h, executeAll_toM (by decide)]
  dsimp only [Comp.value]
  rw [Function.update_of_ne hne]
  rfl

theorem executeAll_popCell (h : Predefined address) :
    executeAll address (popCell ++ ls) ⟨m, a, d⟩ = executeAll address ls ⟨popped m,
      topCell m, d⟩ := by
  unfold popCell
  simp only [List.cons_append, List.nil_append]
  rw [executeAll_loadSP h, executeAll_toAM (by decide)]
  rfl

theorem executeAll_popD (h : Predefined address) (htop : InStack (topCell m)) :
    executeAll address (popD ++ ls) ⟨m, a, d⟩ = executeAll address ls ⟨popped m, topCell m,
      top m⟩ := by
  unfold popD
  rw [List.append_assoc, executeAll_popCell h]
  simp only [List.cons_append, List.nil_append]
  rw [executeAll_toD (.inr htop.2)]
  dsimp only [Comp.value]
  rw [popped_of_ne (htop.ne (by decide))]
  rfl

theorem executeAll_pushCell (h : Predefined address) (hw : address symbol = w)
    (hcell : w.toNat < memorySize) (hsp : InStack (m 0)) :
    executeAll address (pushCell symbol ++ ls) ⟨m, a, d⟩ = executeAll address ls ⟨pushed m (m w),
      0, m w⟩ := by
  unfold pushCell
  simp only [List.cons_append, List.nil_append]
  rw [executeAll_load hw hcell, executeAll_toD (.inr hcell)]
  dsimp only [Comp.value]
  rw [executeAll_pushD h hsp]

theorem executeAll_copy {source target : String} {w' : Word} (hw : address source = w)
    (hcell : w.toNat < memorySize) (hw' : address target = w') (hcell' : w'.toNat < memorySize) :
    executeAll address (copy source target ++ ls) ⟨m, a, d⟩ =
      executeAll address ls ⟨Function.update m w' (m w), w', m w⟩ := by
  unfold copy
  simp only [List.cons_append, List.nil_append]
  rw [executeAll_load hw hcell, executeAll_toD (.inr hcell), executeAll_load hw' hcell',
    executeAll_toM hcell']
  rfl

theorem executeAll_pushZero (h : Predefined address) (hsp : InStack (m 0)) :
    executeAll address (pushZero ++ ls) ⟨m, a, d⟩ = executeAll address ls ⟨pushed m 0, 0, d⟩ := by
  have hne : (0 : Word) ≠ m 0 := (hsp.ne (by decide)).symm
  unfold pushZero
  simp only [List.cons_append, List.nil_append]
  rw [executeAll_loadSP h, executeAll_toA (.inr (by decide))]
  dsimp only [Comp.value]
  rw [executeAll_toM hsp.2, executeAll_loadSP h, executeAll_toM (by decide)]
  dsimp only [Comp.value]
  rw [Function.update_of_ne hne]
  rfl

end

end JackToolchain.VM
