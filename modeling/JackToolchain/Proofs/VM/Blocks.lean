import JackToolchain.Proofs.VM.Effect

/-!
# Blocks without jumps

The blocks that push, pop, compute without comparing, and begin a function are straight code.  Each
does to memory what its command does; what it leaves in the registers does not matter.
-/

namespace JackToolchain.VM

open Hack Block

/-- Straight code that makes one memory of another. -/
def Executes (address : String → Word) (block : List Line) (m m' : Memory) : Prop :=
  ∀ a d, (executeAll address block ⟨m, a, d⟩).map Core.memory = some m'

/-! ### Segments -/

theorem of_ite_eq_ok {ε α : Type} {p : Prop} [Decidable p] {e : ε} {x y : α}
    (h : (if p then Except.ok x else .error e) = .ok y) : p ∧ x = y := by
  split at h
  · next hp => exact ⟨hp, Except.ok.inj h⟩
  · cases h

namespace Context

/-- The cell that an access is to. -/
def Access.cell? (address : String → Word) (m : Memory) (index : Word) : Access → Option Word
  | .immediate => none
  | .indirect base => some (m (address base) + index)
  | .direct symbol => some (address symbol)

section
variable {c : Context} {address : String → Word} {m : Memory} {segment : Segment} {index : Word}
  {access : Access}

theorem address_base (h : Predefined address) :
    address "LCL" = 1 ∧ address "ARG" = 2 ∧ address "THIS" = 3 ∧ address "THAT" = 4 :=
  ⟨h ("LCL", 1) (by decide), h ("ARG", 2) (by decide), h ("THIS", 3) (by decide),
    h ("THAT", 4) (by decide)⟩

/-- The cell of an access is that of the segment. -/
theorem cell?_of_access (h : Predefined address) (haccess : c.access segment index = .ok access) :
    access.cell? address m index = c.cell? address m segment index := by
  obtain ⟨hlcl, harg, hthis, hthat⟩ := address_base h
  cases segment with
  | constant | locals | argument | this | that =>
    cases haccess
    simp [Access.cell?, cell?, hlcl, harg, hthis, hthat]
  | statics =>
    cases haccess
    rfl
  | pointer =>
    obtain ⟨hindex, haccess⟩ := of_ite_eq_ok haccess
    have hsmall : ∀ k < pointerSize, address (if BitVec.ofNat 16 k = 0 then "THIS" else "THAT") =
        3 + BitVec.ofNat 16 k := by
      intro k hk
      match k, hk with
      | 0, _ => exact hthis
      | 1, _ => exact hthat
    have hcell := hsmall _ hindex
    rw [BitVec.ofNat_toNat, BitVec.setWidth_eq] at hcell
    rw [← haccess]
    exact congrArg some hcell
  | temp =>
    obtain ⟨hindex, haccess⟩ := of_ite_eq_ok haccess
    have hmem : ∀ k < tempSize, ("R" ++ toString (tempBase + k), (5 : Word) + BitVec.ofNat 16 k) ∈
        predefinedSymbols := by
      decide
    have hcell := h _ (hmem _ hindex)
    rw [BitVec.ofNat_toNat, BitVec.setWidth_eq] at hcell
    rw [← haccess]
    exact congrArg some hcell

end

end Context

/-! ### Blocks -/

section
variable {c : Context} {address : String → Word} {m : Memory} {segment : Segment} {index : Word}
  {block : List Line}

/-- The base of a segment is one of four cells. -/
theorem base_of_access {base : String} (h : Predefined address)
    (haccess : c.access segment index = .ok (.indirect base)) :
    Context.isIndirect segment = true ∧ (address base).toNat < 16 := by
  obtain ⟨hlcl, harg, hthis, hthat⟩ := Context.address_base h
  cases segment with
  | locals | argument | this | that =>
    cases haccess
    refine ⟨rfl, ?_⟩
    simp [hlcl, harg, hthis, hthat]
  | constant | statics => cases haccess
  | pointer | temp => cases (of_ite_eq_ok haccess).2

theorem isIndirect_of_access {symbol : String}
    (haccess : c.access segment index = .ok (.direct symbol)) :
    Context.isIndirect segment = false := by
  cases segment with
  | locals | argument | this | that | constant => cases haccess
  | statics | pointer | temp => rfl

/-- What a push block needs of an instruction: the index is a constant that can be loaded. -/
theorem executes_pushBlock (h : Predefined address) (hblock : c.pushBlock segment index = .ok block)
    (hconstant : ∀ n, loadConstant n ∈ block → n ≤ maxConstant)
    (haccesses : c.Accesses address m (.push segment index)) :
    Executes address block m (c.effect address m (.push segment index)) := by
  intro a d
  obtain ⟨hsp, hcell⟩ := haccesses
  obtain ⟨access, haccess, hlines⟩ := Context.access_of_pushBlock hblock
  have heq := Context.cell?_of_access (m := m) h haccess
  rw [← heq] at hcell
  unfold Context.effect
  dsimp only
  rw [← heq]
  cases access with
  | immediate =>
    cases hlines
    have hn := hconstant _ List.mem_cons_self
    simp only [List.cons_append, List.nil_append]
    rw [executeAll_loadConstant hn, executeAll_toD (.inl rfl), ← List.append_nil pushD,
      executeAll_pushD h hsp]
    simp only [Comp.value, BitVec.ofNat_toNat, BitVec.setWidth_eq]
    rfl
  | indirect base =>
    cases hlines
    obtain ⟨-, hbase⟩ := base_of_access h haccess
    have hn := hconstant _ (List.mem_cons_of_mem _ (List.mem_cons_of_mem _ List.mem_cons_self))
    have hbase' : (address base).toNat < memorySize := lt_trans hbase (by decide)
    have hsize : (m (address base) + index).toNat < memorySize := hcell _ rfl
    simp only [List.cons_append, List.nil_append]
    rw [executeAll_load rfl hbase', executeAll_toD (.inr hbase'), executeAll_loadConstant hn,
      executeAll_toA (.inl rfl)]
    simp only [Comp.value, BitVec.ofNat_toNat, BitVec.setWidth_eq]
    rw [executeAll_toD (.inr hsize), ← List.append_nil pushD, executeAll_pushD h hsp]
    rfl
  | direct symbol =>
    cases hlines
    have hsize : (address symbol).toNat < memorySize := hcell _ rfl
    rw [← List.append_nil (pushCell symbol), executeAll_pushCell h rfl hsize hsp]
    rfl

theorem executes_popBlock (h : Predefined address) (hblock : c.popBlock segment index = .ok block)
    (hconstant : ∀ n, loadConstant n ∈ block → n ≤ maxConstant)
    (haccesses : c.Accesses address m (.pop segment index)) :
    Executes address block m (c.effect address m (.pop segment index)) := by
  intro a d
  obtain ⟨htop, hcell⟩ := haccesses
  obtain ⟨access, haccess, hlines⟩ := Context.access_of_popBlock hblock
  have heq := Context.cell?_of_access (m := m) h haccess
  rw [← heq] at hcell
  unfold Context.effect
  dsimp only
  rw [← heq]
  cases access with
  | immediate => cases hlines
  | indirect base =>
    cases hlines
    obtain ⟨hindirect, hbase⟩ := base_of_access h haccess
    have hr : address "R13" = 13 := h ("R13", 13) (by decide)
    have hn := hconstant _ (List.mem_cons_of_mem _ (List.mem_cons_of_mem _ List.mem_cons_self))
    have hbase' : (address base).toNat < memorySize := lt_trans hbase (by decide)
    have hsize : (m (address base) + index).toNat < memorySize := hcell _ rfl
    simp only [List.cons_append, List.nil_append]
    rw [executeAll_load rfl hbase', executeAll_toD (.inr hbase'), executeAll_loadConstant hn,
      executeAll_toD (.inl rfl), executeAll_load hr (by decide), executeAll_toM (by decide)]
    simp only [Comp.value, BitVec.ofNat_toNat, BitVec.setWidth_eq]
    -- The address is in `R13` now, and the word on top is where it was.
    generalize hm' : Function.update m 13 (m (address base) + index) = m'
    have hzero : m' 0 = m 0 := by
      rw [← hm']
      exact Function.update_of_ne (by decide) _ _
    have hthirteen : m' 13 = m (address base) + index := by
      rw [← hm']
      exact Function.update_self _ _ _
    have htop' : m' (m 0 - 1) = m (m 0 - 1) := by
      rw [← hm']
      exact Function.update_of_ne (htop.ne (by decide)) _ _
    rw [executeAll_popD h (by rwa [topCell, hzero]), executeAll_load hr (by decide),
      executeAll_toA (.inr (by decide))]
    simp only [Comp.value]
    rw [popped_of_ne (by decide), hthirteen, executeAll_toM hsize]
    simp only [executeAll, Option.map_some, Comp.value, Context.Access.cell?, hindirect, if_true,
      hm', top, topCell, popped, hzero, htop']
  | direct symbol =>
    cases hlines
    have hsize : (address symbol).toNat < memorySize := hcell _ rfl
    rw [executeAll_popD h htop, executeAll_load rfl hsize, executeAll_toM hsize]
    simp only [executeAll, Option.map_some, Comp.value, Context.Access.cell?,
      isIndirect_of_access haccess, top, topCell, popped, if_neg Bool.false_ne_true]

end

/-! ### Arithmetic -/

section
variable {c : Context} {address : String → Word} {m : Memory} {comp : Comp} {op : ArithOp}

/-- The word on top is replaced by what is computed from it. -/
theorem executes_unaryBlock {z : Word} (h : Predefined address) (htop : InStack (m 0 - 1))
    (hz : ∀ a d, comp.value d a (m (m 0 - 1)) = z) :
    Executes address (Context.unaryBlock comp) m (Function.update m (m 0 - 1) z) := by
  intro a d
  unfold Context.unaryBlock
  rw [executeAll_loadSP h, executeAll_toA (.inr (by decide))]
  simp only [Comp.value]
  rw [executeAll_toM htop.2, hz]
  rfl

/-- The two words on top are replaced by what is computed from them. -/
theorem executes_binaryBlock {z : Word} (h : Predefined address) (htop : InStack (m 0 - 1))
    (hnext : InStack (m 0 - 2)) (hz : ∀ a, comp.value (m (m 0 - 1)) a (m (m 0 - 2)) = z) :
    Executes address (Context.binaryBlock comp) m
      (Function.update (Function.update m 0 (m 0 - 1)) (m 0 - 2) z) := by
  intro a d
  have hcell : topCell m - 1 = m 0 - 2 := by
    unfold topCell
    rw [sub_sub]
    rfl
  unfold Context.binaryBlock
  rw [executeAll_popD h htop, executeAll_toA (.inl rfl)]
  simp only [Comp.value]
  rw [hcell, executeAll_toM hnext.2, popped_of_ne (hnext.ne (by decide)), top, topCell, hz]
  rfl

/-- **Operations that do not compare.** -/
theorem executes_arithBlock (h : Predefined address) (haccesses : c.Accesses address m (.arith op))
    (hop : op ≠ .eq ∧ op ≠ .gt ∧ op ≠ .lt) :
    Executes address (c.arithBlock op) m (c.effect address m (.arith op)) := by
  cases op with
  | neg | not => exact executes_unaryBlock h haccesses fun _ _ => rfl
  | add => exact executes_binaryBlock h haccesses.1 haccesses.2 fun _ => BitVec.add_comm _ _
  | sub => exact executes_binaryBlock h haccesses.1 haccesses.2 fun _ => rfl
  | and => exact executes_binaryBlock h haccesses.1 haccesses.2 fun _ => BitVec.and_comm _ _
  | or => exact executes_binaryBlock h haccesses.1 haccesses.2 fun _ => BitVec.or_comm _ _
  | eq | gt | lt => simp at hop

end

/-! ### Functions -/

section
variable {c : Context} {address : String → Word} {m : Memory}

/-- Memory with some zeros pushed. -/
def zeroed (m : Memory) (n : Nat) : Memory := fun a =>
  if a = 0 then m 0 + BitVec.ofNat 16 n
  else if ∃ k < n, a = m 0 + BitVec.ofNat 16 k then 0
  else m a

theorem zeroed_zero : zeroed m 0 = m := by
  funext a
  unfold zeroed
  split
  · next ha =>
    rw [ha]
    exact BitVec.add_zero _
  · exact if_neg fun ⟨k, hk, _⟩ => absurd hk (Nat.not_lt_zero k)

theorem zeroed_succ {n : Nat} : pushed (zeroed m n) 0 = zeroed m (n + 1) := by
  have hpointer : zeroed m n 0 = m 0 + BitVec.ofNat 16 n := if_pos rfl
  funext a
  unfold pushed
  rw [hpointer]
  by_cases ha : a = 0
  · subst ha
    rw [Function.update_self, zeroed, if_pos rfl, BitVec.ofNat_add, ← BitVec.add_assoc]
    rfl
  · rw [Function.update_of_ne ha, zeroed, if_neg ha]
    by_cases han : a = m 0 + BitVec.ofNat 16 n
    · rw [if_pos ⟨n, Nat.lt_succ_self n, han⟩, han, Function.update_self]
    · have hiff : (∃ k < n + 1, a = m 0 + BitVec.ofNat 16 k) ↔ ∃ k < n,
          a = m 0 + BitVec.ofNat 16 k := by
        constructor
        · rintro ⟨k, hk, hak⟩
          rcases Nat.lt_succ_iff_lt_or_eq.mp hk with hk | rfl
          · exact ⟨k, hk, hak⟩
          · exact absurd hak han
        · rintro ⟨k, hk, hak⟩
          exact ⟨k, Nat.lt_succ_of_lt hk, hak⟩
      rw [Function.update_of_ne han, zeroed, if_neg ha]
      simp only [hiff]

theorem executeAll_pushZeros {n : Nat} {a d : Word} (h : Predefined address)
    (hn : ∀ k < n, InStack (m 0 + BitVec.ofNat 16 k)) :
    (executeAll address (List.replicate n pushZero).flatten ⟨m, a, d⟩).map Core.memory =
      some (zeroed m n) := by
  induction n with
  | zero =>
    rw [zeroed_zero]
    rfl
  | succ n ih =>
    have hpointer : InStack (zeroed m n 0) := by
      rw [zeroed, if_pos rfl]
      exact hn n (Nat.lt_succ_self n)
    obtain ⟨⟨m', a', d'⟩, hzeros, hm'⟩ :=
      Option.map_eq_some_iff.mp (ih fun k hk => hn k (Nat.lt_succ_of_lt hk))
    replace hm' : m' = zeroed m n := hm'
    subst hm'
    rw [List.replicate_succ', List.flatten_append, executeAll_append, hzeros, Option.bind_some,
      List.flatten_singleton, ← List.append_nil pushZero,
      executeAll_pushZero h hpointer, ← zeroed_succ]
    rfl

/-- The block that begins a function. -/
theorem executes_functionBlock {name : String} {locals : Word} (h : Predefined address)
    (haccesses : c.Accesses address m (.function name locals)) :
    Executes address (Context.functionBlock name locals) m
      (c.effect address m (.function name locals)) := by
  intro a d
  have heffect : c.effect address m (.function name locals) = zeroed m locals.toNat := by
    unfold Context.effect zeroed
    rw [BitVec.ofNat_toNat, BitVec.setWidth_eq]
  unfold Context.functionBlock
  rw [executeAll_label, heffect]
  exact executeAll_pushZeros h haccesses

end

end JackToolchain.VM
