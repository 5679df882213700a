import JackToolchain.Proofs.VM.Simulation

/-!
# Calls and returns

A call pushes the place to return to and the four segments of the caller, and these five words are
its frame (`Framed`).  A return from wherever the frame has been kept puts the result where the
first argument was, gives the caller its segments back, and goes to the place behind the call
(`runs_call_ret`).

The two are described apart from each other first.  A return knows nothing of the call: it only
finds five words below the base of its local segment, and the result takes the cell of the first of
them if there are no arguments.
-/

namespace JackToolchain.VM

open Hack Block Translator

/-! ### Words pushed one behind the other -/

/-- Memory with words pushed, from the first to the last. -/
def pushedAll (m : Memory) (vs : List Word) : Memory := vs.foldl pushed m

section
variable {m : Memory} {v x : Word} {vs : List Word}

theorem pushed_zero : pushed m v 0 = m 0 + 1 := Function.update_self _ _ _

theorem pushed_of_ne (hzero : x ≠ 0) (hcell : x ≠ m 0) : pushed m v x = m x := by
  unfold pushed
  rw [Function.update_of_ne hzero, Function.update_of_ne hcell]

theorem pushed_cell (hcell : m 0 ≠ 0) : pushed m v (m 0) = v := by
  unfold pushed
  rw [Function.update_of_ne hcell, Function.update_self]

theorem toNat_pushed_zero (hroom : (m 0).toNat < memorySize) :
    (pushed m v 0).toNat = (m 0).toNat + 1 := by
  unfold memorySize at hroom
  rw [pushed_zero]
  bv_omega

theorem pushedAll_cons : pushedAll m (v :: vs) = pushedAll (pushed m v) vs := rfl

theorem pushedAll_zero : pushedAll m vs 0 = m 0 + BitVec.ofNat 16 vs.length := by
  induction vs generalizing m with
  | nil => exact (BitVec.add_zero _).symm
  | cons v vs ih =>
    rw [pushedAll_cons, ih, pushed_zero, List.length_cons]
    bv_omega

/-- Cells in front of the stack or behind the words are left alone. -/
theorem pushedAll_of_outside (hroom : (m 0).toNat + vs.length ≤ memorySize) (hzero : x ≠ 0)
    (hx : x.toNat < (m 0).toNat ∨ (m 0).toNat + vs.length ≤ x.toNat) : pushedAll m vs x = m x := by
  induction vs generalizing m with
  | nil => rfl
  | cons v vs ih =>
    rw [List.length_cons] at hroom hx
    have hpointer : (pushed m v 0).toNat = (m 0).toNat + 1 := toNat_pushed_zero (by omega)
    have hcell : x ≠ m 0 := by
      rintro rfl
      omega
    rw [pushedAll_cons, ih (by omega) (by omega), pushed_of_ne hzero hcell]

theorem pushedAll_getElem (hstack : m 0 ≠ 0) (hroom : (m 0).toNat + vs.length ≤ memorySize)
    {k : Nat} (hk : k < vs.length) : pushedAll m vs (m 0 + BitVec.ofNat 16 k) = vs[k] := by
  induction vs generalizing m k with
  | nil => exact absurd hk (Nat.not_lt_zero k)
  | cons v vs ih =>
    rw [List.length_cons] at hroom hk
    have hpointer : (pushed m v 0).toNat = (m 0).toNat + 1 := toNat_pushed_zero (by omega)
    rw [pushedAll_cons]
    cases k with
    | zero =>
      show pushedAll (pushed m v) vs (m 0 + 0) = v
      rw [add_zero, pushedAll_of_outside (by omega) hstack (by omega), pushed_cell hstack]
    | succ k =>
      have hnext : pushed m v 0 ≠ 0 := by
        intro heq
        rw [heq] at hpointer
        exact absurd hpointer (by simp)
      have hcell : m 0 + BitVec.ofNat 16 (k + 1) = pushed m v 0 + BitVec.ofNat 16 k := by
        rw [pushed_zero]
        bv_omega
      rw [hcell, ih hnext (by omega) (by omega)]
      rfl

end

/-! ### Calls -/

/-- The frame of a call.  The segments of the function called begin around the five words, which are
the place to return to and the segments of the caller. -/
structure Framed (caller : Memory) (returnTo args : Word) (m : Memory) : Prop where
  locals : m 1 = caller 0 + 5
  argument : m 2 = caller 0 - args
  returnTo : m (caller 0) = returnTo
  savedLocals : m (caller 0 + 1) = caller 1
  savedArgument : m (caller 0 + 2) = caller 2
  savedThis : m (caller 0 + 3) = caller 3
  savedThat : m (caller 0 + 4) = caller 4

/-- Memory when a function has been entered: the frame is on the stack, and nothing else has
changed. -/
structure Entered (caller : Memory) (returnTo args : Word) (m : Memory) : Prop where
  framed : Framed caller returnTo args m
  stack : m 0 = caller 0 + 5
  others : ∀ x, x ∉ [0, 1, 2] → x.toNat < (caller 0).toNat ∨ (caller 0).toNat + 5 ≤ x.toNat →
    m x = caller x

/-- There is room on the stack for the frame of a call with arguments. -/
structure Room (m : Memory) (args : Word) : Prop where
  arguments : 16 + args.toNat ≤ (m 0).toNat
  frame : (m 0).toNat + 5 < memorySize

/-- What memory holds when a function has been called. -/
def called (m : Memory) (returnTo args : Word) : Memory :=
  Function.update (Function.update (pushedAll m [returnTo, m 1, m 2, m 3, m 4]) 2 (m 0 - args)) 1
    (m 0 + 5)

section
variable {m : Memory} {a d x returnTo args : Word} {address : String → Word} {ls : List Line}
  {c : Context} {name : String}

theorem Room.stack_ne (h : Room m args) : m 0 ≠ 0 := by
  have hargs := h.arguments
  intro heq
  rw [heq] at hargs
  simp at hargs

theorem framed_called (h : Room m args) : Framed m returnTo args (called m returnTo args) := by
  have harguments := h.arguments
  have hframe := h.frame
  unfold memorySize at hframe
  have hword {k : Nat} (hk : k < 5) : called m returnTo args (m 0 + BitVec.ofNat 16 k) =
      [returnTo, m 1, m 2, m 3, m 4][k] := by
    have hlocals : m 0 + BitVec.ofNat 16 k ≠ 1 := by bv_omega
    have hargument : m 0 + BitVec.ofNat 16 k ≠ 2 := by bv_omega
    have hroom : (m 0).toNat + [returnTo, m 1, m 2, m 3, m 4].length ≤ memorySize :=
      le_of_lt h.frame
    unfold called
    rw [Function.update_of_ne hlocals, Function.update_of_ne hargument]
    exact pushedAll_getElem h.stack_ne hroom hk
  refine ⟨Function.update_self _ _ _, ?_, ?_, hword (k := 1) (by decide),
    hword (k := 2) (by decide), hword (k := 3) (by decide), hword (k := 4) (by decide)⟩
  · unfold called
    rw [Function.update_of_ne (by decide), Function.update_self]
  · have hfirst := hword (k := 0) (by decide)
    rwa [show m 0 + BitVec.ofNat 16 0 = m 0 from add_zero _] at hfirst

theorem called_zero : called m returnTo args 0 = m 0 + 5 := by
  unfold called
  rw [Function.update_of_ne (by decide), Function.update_of_ne (by decide), pushedAll_zero]
  rfl

theorem entered_called (h : Room m args) : Entered m returnTo args (called m returnTo args) := by
  refine ⟨framed_called h, called_zero, fun x hx houtside => ?_⟩
  simp only [List.mem_cons, List.not_mem_nil, or_false, not_or] at hx
  obtain ⟨hzero, hlocals, hargument⟩ := hx
  unfold called
  rw [Function.update_of_ne hlocals, Function.update_of_ne hargument]
  exact pushedAll_of_outside (le_of_lt h.frame) hzero houtside

/-- The segments of the caller are pushed. -/
theorem executeAll_pushCells {cells : List (String × Word)} (h : Predefined address)
    (hcells : ∀ p ∈ cells, address p.1 = p.2 ∧ p.2 ≠ 0 ∧ p.2.toNat < 16) (hstack : 16 ≤ (m 0).toNat)
    (hroom : (m 0).toNat + cells.length ≤ memorySize) :
    ∃ a' d', executeAll address ((cells.map Prod.fst).flatMap pushCell) ⟨m, a, d⟩ =
      some ⟨pushedAll m (cells.map fun p => m p.2), a', d'⟩ := by
  induction cells generalizing m a d with
  | nil => exact ⟨a, d, rfl⟩
  | cons p cells ih =>
    obtain ⟨⟨haddress, -, hsmall⟩, hcells⟩ := List.forall_mem_cons.mp hcells
    rw [List.length_cons] at hroom
    have hpointer : (pushed m (m p.2) 0).toNat = (m 0).toNat + 1 := toNat_pushed_zero (by omega)
    obtain ⟨a', d', hrest⟩ :=
      ih (m := pushed m (m p.2)) (a := 0) (d := m p.2) hcells (by omega) (by omega)
    refine ⟨a', d', ?_⟩
    -- The segments are in front of the stack, so pushing one does not change the others.
    have hsame : (cells.map fun p' => pushed m (m p.2) p'.2) = cells.map fun p' => m p'.2 := by
      refine List.map_congr_left fun p' hp' => ?_
      obtain ⟨-, hzero, hsmall'⟩ := hcells p' hp'
      refine pushed_of_ne hzero ?_
      rintro heq
      rw [heq] at hsmall'
      omega
    rw [hsame] at hrest
    rw [List.map_cons, List.flatMap_cons,
      executeAll_pushCell h haddress (lt_trans hsmall (by decide)) ⟨hstack, by omega⟩]
    exact hrest

/-- The part of a call that comes before the jump. -/
def enterFrame (c : Context) (args : Word) : List Line :=
  [load c.returnLabel, set toD .a] ++ pushD
    ++ ["LCL", "ARG", "THIS", "THAT"].flatMap pushCell
    ++ [load "SP", set toD .m, loadConstant (5 + args.toNat), set toD .dMinusA,
    load "ARG", set toM .d] ++ copy "SP" "LCL"

theorem callBlock_eq :
    c.callBlock name args = enterFrame c args ++ (Block.goto name ++ [Block.label c.returnLabel]) :=
  List.append_assoc _ _ _

theorem wordCount_enterFrame : wordCount (enterFrame c args) = 45 := by
  simp [enterFrame, pushCell, pushD, copy]

theorem wordCount_callBlock : wordCount (c.callBlock name args) = 47 := by
  simp [callBlock_eq, wordCount_enterFrame, Block.goto]

theorem executeAll_enterFrame (h : Predefined address)
    (hlabel : (address c.returnLabel).toNat < memorySize) (hconstant : 5 + args.toNat ≤ maxConstant)
    (hroom : Room m args) : ∃ a' d', executeAll address (enterFrame c args) ⟨m, a, d⟩ =
      some ⟨called m (address c.returnLabel) args, a', d'⟩ := by
  obtain ⟨hlcl, harg, hthis, hthat⟩ := Context.address_base h
  have harguments := hroom.arguments
  have hframe := hroom.frame
  have hstack : InStack (m 0) := ⟨by omega, by omega⟩
  generalize hw : address c.returnLabel = w at hlabel ⊢
  have hpointer : (pushed m w 0).toNat = (m 0).toNat + 1 := toNat_pushed_zero (by omega)
  have hsegments : ∀ p ∈ [("LCL", (1 : Word)), ("ARG", 2), ("THIS", 3), ("THAT", 4)],
      address p.1 = p.2 ∧ p.2 ≠ 0 ∧ p.2.toNat < 16 := by
    simp [hlcl, harg, hthis, hthat]
  have hwords : pushedAll (pushed m w) [pushed m w 1, pushed m w 2, pushed m w 3, pushed m w 4] =
      pushedAll m [w, m 1, m 2, m 3, m 4] := by
    have hsame {x : Word} (hzero : x ≠ 0) (hx : x.toNat < 16) : pushed m w x = m x :=
      pushed_of_ne hzero (hstack.ne hx).symm
    rw [hsame (by decide) (by decide), hsame (by decide) (by decide), hsame (by decide) (by decide),
      hsame (by decide) (by decide)]
    exact pushedAll_cons.symm
  have hsp : address "SP" = 0 := h ("SP", 0) (by decide)
  have hfree : pushedAll m [w, m 1, m 2, m 3, m 4] 0 = m 0 + 5 := pushedAll_zero
  have hfirst : m 0 + 5 - BitVec.ofNat 16 (5 + args.toNat) = m 0 - args := by
    rw [BitVec.ofNat_add, BitVec.ofNat_toNat, BitVec.setWidth_eq, add_comm]
    exact add_sub_add_left_eq_sub (m 0) args 5
  have hcount : (pushed m w 0).toNat + 4 ≤ memorySize := by omega
  unfold enterFrame
  simp only [List.append_assoc, List.cons_append, List.nil_append]
  rw [executeAll_load hw hlabel, executeAll_toD (.inl rfl)]
  dsimp only [Comp.value]
  rw [executeAll_pushD h hstack]
  obtain ⟨a₁, d₁, hcells⟩ :=
    executeAll_pushCells (m := pushed m w) (a := 0) (d := w) h hsegments (by omega) hcount
  simp only [List.map_cons, List.map_nil] at hcells
  rw [executeAll_append, hcells, Option.bind_some, hwords, executeAll_loadSP h,
    executeAll_toD (.inr (by decide)), executeAll_loadConstant hconstant, executeAll_toD (.inl rfl),
    executeAll_load harg (by decide), executeAll_toM (by decide)]
  dsimp only [Comp.value]
  rw [hfree, hfirst, ← List.append_nil (copy "SP" "LCL"),
    executeAll_copy hsp (by decide) hlcl (by decide), Function.update_of_ne (by decide), hfree]
  exact ⟨_, _, rfl⟩

end

section
variable {settings : Settings} {units : List (String × String)} {rom : Array Word}
  {front block : List Line} {c : Context} {name : String} {args : Word} {m : Memory} {a d : Word}
  {place : Nat}

/-- The place behind a command is a word. -/
theorem toNat_placeBehind {command : Command} (h : Built settings units rom)
    (hoccurs : Occurs settings units front c command block) :
    (BitVec.ofNat 16 (wordCount front + wordCount block)).toNat =
      wordCount front + wordCount block := by
  obtain ⟨-, behind, hlines⟩ := program_of_occurs hoccurs
  have hsize := h.wordCount_le hlines
  rw [wordCount_append] at hsize
  unfold maxConstant at hsize
  rw [BitVec.toNat_ofNat]
  omega

/-- A call at its place. -/
theorem runs_call (h : Built settings units rom)
    (hoccurs : Occurs settings units front c (.call name args) block)
    (hname : DeclaredAt (program settings units) name place) (hroom : Room m args) :
    ∃ a' d', Cpu.Runs rom.toList (wordCount front) (wordCount front + wordCount block)
      ⟨⟨m, a, d⟩, wordCount front⟩
      ⟨⟨called m (BitVec.ofNat 16 (wordCount front + wordCount block)) args, a', d'⟩, place⟩ := by
  have hblock : block = c.callBlock name args := by
    obtain ⟨hblock, -⟩ := program_of_occurs hoccurs
    exact (Except.ok.inj hblock).symm
  subst hblock
  have hpredefined : Predefined (symbolAddress settings units) := h.toAssembled.predefined
  have hlabelAt : DeclaredAt (program settings units) c.returnLabel (wordCount front + 47) := by
    have hdeclared := declaredAt_of_occurs hoccurs (enterFrame c args ++ Block.goto name) []
      (callBlock_eq.trans (List.append_assoc _ _ _).symm)
    simpa [wordCount_enterFrame, Block.goto] using hdeclared
  obtain ⟨hlabel, hlabelSize⟩ := h.toNat_label hlabelAt
  obtain ⟨hplace, hplaceSize⟩ := h.toNat_label hname
  have hreturn : symbolAddress settings units c.returnLabel =
      BitVec.ofNat 16 (wordCount front + 47) := by
    rw [← hlabel, BitVec.ofNat_toNat, BitVec.setWidth_eq]
  have hconstant : 5 + args.toNat ≤ maxConstant :=
    constant_of_occurs h hoccurs _ (by simp [Context.callBlock])
  have hplaced := placed_of_occurs h hoccurs
  rw [callBlock_eq, wordsOf_append, placedAt_append, length_wordsOf, wordCount_enterFrame,
    wordsOf_append, placedAt_append] at hplaced
  obtain ⟨henter, hgoto, -⟩ := hplaced
  obtain ⟨a₁, d₁, hexecute⟩ := executeAll_enterFrame (a := a) (d := d) hpredefined
    (lt_of_le_of_lt (hlabel.trans_le hlabelSize) (by decide)) hconstant hroom
  have hentered := Cpu.runs_of_executeAll (enterFrame c args) henter hexecute
  obtain ⟨a₂, d₂, hjumped⟩ :=
    runs_goto (m := called m (symbolAddress settings units c.returnLabel) args) (a := a₁)
    (d := d₁) hgoto (by omega)
  rw [hplace, hreturn] at hjumped
  rw [wordCount_enterFrame, hreturn] at hentered
  rw [wordCount_callBlock]
  exact ⟨a₂, d₂, (hentered.mono le_rfl (by omega)).trans (hjumped.mono (by omega) (by omega))⟩

end

/-! ### Segments restored -/

/-- Memory with the word below the cell in `R13` restored to a segment. -/
def restored (m : Memory) (segment : Word) : Memory :=
  Function.update (Function.update m 13 (m 13 - 1)) segment (m (m 13 - 1))

/-- Memory with segments restored, from the first to the last. -/
def restoredAll (m : Memory) (segments : List Word) : Memory := segments.foldl restored m

section
variable {m : Memory} {a d w x : Word} {ws : List Word} {address : String → Word} {ls : List Line}

theorem restoredAll_cons : restoredAll m (w :: ws) = restoredAll (restored m w) ws := rfl

theorem restored_self : restored m w w = m (m 13 - 1) := Function.update_self _ _ _

theorem restored_pointer (hw : w ≠ 13) : restored m w 13 = m 13 - 1 := by
  unfold restored
  rw [Function.update_of_ne hw.symm, Function.update_self]

theorem restored_of_ne (hpointer : x ≠ 13) (hw : x ≠ w) : restored m w x = m x := by
  unfold restored
  rw [Function.update_of_ne hw, Function.update_of_ne hpointer]

theorem restoredAll_of_notMem (hpointer : x ≠ 13) (hx : x ∉ ws) : restoredAll m ws x = m x := by
  induction ws generalizing m with
  | nil => rfl
  | cons w ws ih =>
    rw [List.mem_cons, not_or] at hx
    obtain ⟨hw, hx⟩ := hx
    rw [restoredAll_cons, ih hx, restored_of_ne hpointer hw]

/-- The segments get the words below the cell in `R13`, from the last to the first. -/
theorem restoredAll_getElem (hws : ∀ w ∈ ws, w ≠ 13 ∧ w.toNat < 16) (hdistinct : ws.Nodup)
    (hlow : 16 + ws.length ≤ (m 13).toNat) {k : Nat} (hk : k < ws.length) :
    restoredAll m ws ws[k] = m (m 13 - BitVec.ofNat 16 (k + 1)) := by
  induction ws generalizing m k with
  | nil => exact absurd hk (Nat.not_lt_zero k)
  | cons w ws ih =>
    obtain ⟨⟨hpointer, hsmall⟩, hws⟩ := List.forall_mem_cons.mp hws
    obtain ⟨hnew, hdistinct⟩ := List.nodup_cons.mp hdistinct
    rw [List.length_cons] at hlow hk
    rw [restoredAll_cons]
    cases k with
    | zero =>
      show restoredAll (restored m w) ws w = m (m 13 - 1)
      rw [restoredAll_of_notMem hpointer hnew, restored_self]
    | succ k =>
      have hcell : m 13 - 1 - BitVec.ofNat 16 (k + 1) = m 13 - BitVec.ofNat 16 (k + 1 + 1) := by
        bv_omega
      have hlow' : 16 ≤ (m 13 - BitVec.ofNat 16 (k + 1 + 1)).toNat := by
        bv_omega
      show restoredAll (restored m w) ws ws[k] = _
      rw [ih hws hdistinct (by rw [restored_pointer hpointer]; bv_omega) (by omega),
        restored_pointer hpointer, hcell, restored_of_ne]
      · rintro heq
        rw [heq] at hlow'
        exact absurd hlow' (by decide)
      · rintro heq
        rw [heq] at hlow'
        omega

/-- One segment is restored. -/
theorem executeAll_restore {symbol : String} (h : Predefined address) (hsymbol : address symbol = w)
    (hw : w.toNat < memorySize) (hcell : InStack (m 13 - 1)) :
    executeAll address (Context.restore symbol ++ ls) ⟨m, a, d⟩ =
      executeAll address ls ⟨restored m w, w, m (m 13 - 1)⟩ := by
  have hpointer : address "R13" = 13 := h ("R13", 13) (by decide)
  unfold Context.restore
  simp only [List.cons_append, List.nil_append]
  rw [executeAll_load hpointer (by decide), executeAll_toAM (by decide)]
  dsimp only [Comp.value]
  rw [executeAll_toD (.inr hcell.2)]
  dsimp only [Comp.value]
  rw [Function.update_of_ne (hcell.ne (by decide)), executeAll_load hsymbol hw, executeAll_toM hw]
  rfl

/-- Segments are restored one behind the other. -/
theorem executeAll_restores {cells : List (String × Word)} (h : Predefined address)
    (hcells : ∀ p ∈ cells, address p.1 = p.2 ∧ p.2 ≠ 13 ∧ p.2.toNat < 16)
    (hlow : 16 + cells.length ≤ (m 13).toNat) (hhigh : (m 13).toNat ≤ memorySize) :
    ∃ a' d', executeAll address ((cells.map Prod.fst).flatMap Context.restore) ⟨m, a, d⟩ =
      some ⟨restoredAll m (cells.map Prod.snd), a', d'⟩ := by
  induction cells generalizing m a d with
  | nil => exact ⟨a, d, rfl⟩
  | cons p cells ih =>
    obtain ⟨⟨haddress, hpointer, hsmall⟩, hcells⟩ := List.forall_mem_cons.mp hcells
    rw [List.length_cons] at hlow
    have hone : (m 13 - 1).toNat = (m 13).toNat - 1 := by
      bv_omega
    have hcell : InStack (m 13 - 1) := ⟨by omega, by omega⟩
    have hnext : (restored m p.2 13).toNat = (m 13).toNat - 1 := by
      rw [restored_pointer hpointer, hone]
    obtain ⟨a', d', hrest⟩ :=
      ih (m := restored m p.2) (a := p.2) (d := m (m 13 - 1)) hcells (by omega) (by omega)
    refine ⟨a', d', ?_⟩
    rw [List.map_cons, List.flatMap_cons,
      executeAll_restore h haddress (lt_trans hsmall (by decide)) hcell]
    exact hrest

end

/-! ### Returns -/

/-- Memory with the end of the frame in `R13` and the place to return to in `R14`. -/
def prepared (m : Memory) : Memory := Function.update (Function.update m 13 (m 1)) 14 (m (m 1 - 5))

/-- Memory with the result on top of the caller's stack. -/
def resulted (m : Memory) : Memory :=
  Function.update (Function.update (popped (prepared m)) (m 2) (m (m 0 - 1))) 0 (m 2 + 1)

/-- The cells of the segments that a return restores, in its order. -/
def segmentCells : List Word := [4, 3, 2, 1]

/-- What memory holds behind a return. -/
def returned (m : Memory) : Memory := restoredAll (resulted m) segmentCells

/-- Memory when a call has returned: the caller has its segments and the result, and besides these
only `R13` and `R14` have changed. -/
structure Returned (caller : Memory) (args v : Word) (m m' : Memory) : Prop where
  stack : m' 0 = caller 0 - args + 1
  result : m' (caller 0 - args) = v
  locals : m' 1 = caller 1
  argument : m' 2 = caller 2
  this : m' 3 = caller 3
  that : m' 4 = caller 4
  others : ∀ x, x ∉ [0, 1, 2, 3, 4, 13, 14, caller 0 - args] → m' x = m x

section
variable {m : Memory} {a d x : Word} {address : String → Word}

theorem prepared_of_ne (hframe : x ≠ 13) (hreturn : x ≠ 14) : prepared m x = m x := by
  unfold prepared
  rw [Function.update_of_ne hreturn, Function.update_of_ne hframe]

theorem resulted_zero : resulted m 0 = m 2 + 1 := Function.update_self _ _ _

theorem resulted_cell (hresult : InStack (m 2)) : resulted m (m 2) = m (m 0 - 1) := by
  unfold resulted
  rw [Function.update_of_ne (hresult.ne (by decide)), Function.update_self]

theorem resulted_of_ne (hzero : x ≠ 0) (hresult : x ≠ m 2) : resulted m x = prepared m x := by
  unfold resulted
  rw [Function.update_of_ne hzero, Function.update_of_ne hresult, popped_of_ne hzero]

theorem resulted_thirteen (hresult : InStack (m 2)) : resulted m 13 = m 1 := by
  rw [resulted_of_ne (by decide) (hresult.ne (by decide)).symm]
  unfold prepared
  rw [Function.update_of_ne (by decide), Function.update_self]

theorem resulted_fourteen (hresult : InStack (m 2)) : resulted m 14 = m (m 1 - 5) := by
  rw [resulted_of_ne (by decide) (hresult.ne (by decide)).symm]
  exact Function.update_self _ _ _

/-- The end of the frame and the place to return to are read from the frame. -/
def takeFrame : List Line :=
  copy "LCL" "R13" ++ [loadConstant 5, set toA .dMinusA, set toD .m, load "R14", set toM .d]

/-- The result takes the place of the first argument. -/
def storeResult : List Line :=
  popD ++ [load "ARG", set toA .m, set toM .d, load "ARG", set toD .mPlusOne, load "SP", set toM .d]

/-- The part of a return that comes before the jump. -/
def leaveFrame : List Line :=
  takeFrame ++ storeResult ++ ["THAT", "THIS", "ARG", "LCL"].flatMap Context.restore
    ++ [load "R14", set toA .m]

theorem returnBlock_eq : Context.returnBlock = leaveFrame ++ [jump .zero .always] := by
  simp [Context.returnBlock, leaveFrame, takeFrame, storeResult]

theorem executeAll_takeFrame (h : Predefined address) (hfirst : InStack (m 1 - 5)) :
    executeAll address takeFrame ⟨m, a, d⟩ = some ⟨prepared m, 14, m (m 1 - 5)⟩ := by
  have hlcl : address "LCL" = 1 := h ("LCL", 1) (by decide)
  have hr13 : address "R13" = 13 := h ("R13", 13) (by decide)
  have hr14 : address "R14" = 14 := h ("R14", 14) (by decide)
  have hfive : BitVec.ofNat 16 5 = (5 : Word) := rfl
  unfold takeFrame
  rw [executeAll_copy hlcl (by decide) hr13 (by decide), executeAll_loadConstant (by decide), hfive,
    executeAll_toA (.inl rfl)]
  dsimp only [Comp.value]
  rw [executeAll_toD (.inr hfirst.2), executeAll_load hr14 (by decide), executeAll_toM (by decide)]
  dsimp only [Comp.value]
  rw [Function.update_of_ne (hfirst.ne (by decide))]
  rfl

theorem executeAll_storeResult (h : Predefined address) (hresult : InStack (m 2))
    (htop : InStack (m 0 - 1)) :
    executeAll address storeResult ⟨prepared m, a, d⟩ = some ⟨resulted m, 0, m 2 + 1⟩ := by
  have harg : address "ARG" = 2 := h ("ARG", 2) (by decide)
  have htopCell : topCell (prepared m) = m 0 - 1 :=
    congrArg (· - 1) (prepared_of_ne (by decide) (by decide))
  have htopWord : top (prepared m) = m (m 0 - 1) := by
    unfold top
    rw [htopCell, prepared_of_ne (htop.ne (by decide)) (htop.ne (by decide))]
  have hargument : popped (prepared m) 2 = m 2 := by
    rw [popped_of_ne (by decide), prepared_of_ne (by decide) (by decide)]
  unfold storeResult
  rw [executeAll_popD h (by rwa [htopCell]), executeAll_load harg (by decide),
    executeAll_toA (.inr (by decide))]
  dsimp only [Comp.value]
  rw [hargument, htopWord, executeAll_toM hresult.2, executeAll_load harg (by decide),
    executeAll_toD (.inr (by decide))]
  dsimp only [Comp.value]
  rw [Function.update_of_ne (hresult.ne (by decide)).symm, hargument, executeAll_loadSP h,
    executeAll_toM (by decide)]
  rfl

theorem executeAll_leaveFrame (h : Predefined address) (hlow : 16 + 5 ≤ (m 1).toNat)
    (hhigh : (m 1).toNat < memorySize) (hresult : InStack (m 2)) (htop : InStack (m 0 - 1)) :
    ∃ d', executeAll address leaveFrame ⟨m, a, d⟩ = some ⟨returned m, m (m 1 - 5), d'⟩ := by
  obtain ⟨hlcl, harg, hthis, hthat⟩ := Context.address_base h
  have hr14 : address "R14" = 14 := h ("R14", 14) (by decide)
  have hfirst : InStack (m 1 - 5) := by
    have hcell : (m 1 - 5).toNat = (m 1).toNat - 5 := by
      bv_omega
    exact ⟨by omega, by omega⟩
  have hsegments : ∀ p ∈ [("THAT", (4 : Word)), ("THIS", 3), ("ARG", 2), ("LCL", 1)],
      address p.1 = p.2 ∧ p.2 ≠ 13 ∧ p.2.toNat < 16 := by
    simp [hlcl, harg, hthis, hthat]
  have hpointer : resulted m 13 = m 1 := resulted_thirteen hresult
  have hcount : 16 + 4 ≤ (resulted m 13).toNat := by
    rw [hpointer]
    omega
  have hreturn : returned m 14 = m (m 1 - 5) := by
    unfold returned
    rw [restoredAll_of_notMem (by decide) (by decide), resulted_fourteen hresult]
  obtain ⟨a₁, d₁, hrestores⟩ :=
    executeAll_restores (m := resulted m) (a := 0) (d := m 2 + 1) h hsegments hcount
    (by rw [hpointer]; exact hhigh.le)
  simp only [List.map_cons, List.map_nil] at hrestores
  refine ⟨d₁, ?_⟩
  unfold leaveFrame
  rw [List.append_assoc, List.append_assoc, executeAll_append, executeAll_takeFrame h hfirst,
    Option.bind_some, executeAll_append, executeAll_storeResult h hresult htop, Option.bind_some,
    executeAll_append, hrestores, Option.bind_some, executeAll_load hr14 (by decide),
    executeAll_toA (.inr (by decide))]
  dsimp only [Comp.value]
  rw [← hreturn]
  rfl

end

section
variable {caller m : Memory} {args returnTo : Word}

theorem Room.toNat_result (h : Room caller args) :
    (caller 0 - args).toNat = (caller 0).toNat - args.toNat := by
  have harguments := h.arguments
  bv_omega

/-- The result of a call has a cell. -/
theorem Room.result (hroom : Room caller args) (h : Framed caller returnTo args m) :
    InStack (m 2) := by
  have harguments := hroom.arguments
  have hframe := hroom.frame
  have hcell := hroom.toNat_result
  rw [h.argument]
  exact ⟨by omega, by omega⟩

theorem Room.toNat_frame (h : Room caller args) {k : Nat} (hk : k ≤ 5) :
    (caller 0 + BitVec.ofNat 16 k).toNat = (caller 0).toNat + k := by
  have hframe := h.frame
  unfold memorySize at hframe
  bv_omega

theorem of_mem_segmentCells {w : Word} (h : w ∈ segmentCells) : w ≠ 13 ∧ w.toNat < 16 := by
  simp only [segmentCells, List.mem_cons, List.not_mem_nil, or_false] at h
  rcases h with rfl | rfl | rfl | rfl <;> decide

/-- A segment gets its word from the frame, although the result may have taken the first cell of the
frame. -/
theorem returned_segment (hroom : Room caller args) (h : Framed caller returnTo args m) {k : Nat}
    (hk : k < segmentCells.length) :
    returned m segmentCells[k] = m (caller 0 + BitVec.ofNat 16 (4 - k)) := by
  have hfour : k < 4 := hk
  have hpointer : resulted m 13 = caller 0 + 5 := by
    rw [resulted_thirteen (hroom.result h), h.locals]
  have hbase : (resulted m 13).toNat = (caller 0).toNat + 5 := by
    rw [hpointer]
    exact hroom.toNat_frame le_rfl
  have harguments := hroom.arguments
  have hlow : 16 + segmentCells.length ≤ (resulted m 13).toNat := by
    show 16 + 4 ≤ _
    omega
  have hcell : resulted m 13 - BitVec.ofNat 16 (k + 1) = caller 0 + BitVec.ofNat 16 (4 - k) := by
    rw [hpointer]
    bv_omega
  have hplace : (caller 0 + BitVec.ofNat 16 (4 - k)).toNat = (caller 0).toNat + (4 - k) :=
    hroom.toNat_frame (by omega)
  have hne {x : Word} (hx : x.toNat < 16) : caller 0 + BitVec.ofNat 16 (4 - k) ≠ x := by
    rintro rfl
    omega
  have hresult : caller 0 + BitVec.ofNat 16 (4 - k) ≠ m 2 := by
    intro heq
    rw [heq, h.argument, hroom.toNat_result] at hplace
    omega
  unfold returned
  rw [restoredAll_getElem (fun w => of_mem_segmentCells) (by decide) hlow hk, hcell,
    resulted_of_ne (hne (by decide)) hresult, prepared_of_ne (hne (by decide)) (hne (by decide))]

theorem returned_of_notMem {x : Word} (hframe : x ≠ 13) (hx : x ∉ segmentCells) :
    returned m x = resulted m x :=
  restoredAll_of_notMem hframe hx

/-- **The caller has its segments back,** and the result in the place of the arguments. -/
theorem returned_of_framed (hroom : Room caller args) (h : Framed caller returnTo args m) :
    Returned caller args (m (m 0 - 1)) m (returned m) := by
  have hresult : InStack (m 2) := hroom.result h
  refine ⟨?_, ?_, ?_, ?_, ?_, ?_, ?_⟩
  · rw [returned_of_notMem (by decide) (by decide), resulted_zero, h.argument]
  · have hcell : m 2 ∉ segmentCells := fun hmem => hresult.ne (of_mem_segmentCells hmem).2 rfl
    rw [← h.argument, returned_of_notMem (hresult.ne (by decide)) hcell, resulted_cell hresult]
  · exact (returned_segment hroom h (k := 3) (by decide)).trans h.savedLocals
  · exact (returned_segment hroom h (k := 2) (by decide)).trans h.savedArgument
  · exact (returned_segment hroom h (k := 1) (by decide)).trans h.savedThis
  · exact (returned_segment hroom h (k := 0) (by decide)).trans h.savedThat
  · intro x hx
    rw [← h.argument] at hx
    simp only [List.mem_cons, List.not_mem_nil, or_false, not_or] at hx
    obtain ⟨hzero, hlocals, hargument, hthis, hthat, hframe, hreturn, hcell⟩ := hx
    have hsegments : x ∉ segmentCells := by
      simp only [segmentCells, List.mem_cons, List.not_mem_nil, or_false, not_or]
      exact ⟨hthat, hthis, hargument, hlocals⟩
    rw [returned_of_notMem hframe hsegments, resulted_of_ne hzero hcell,
      prepared_of_ne hframe hreturn]

end

/-! ### Calls and returns together -/

section
variable {settings : Settings} {units : List (String × String)} {rom : Array Word}
  {front block : List Line} {c : Context} {name : String} {args returnTo : Word}
  {caller m : Memory} {a d : Word}
  {place : Nat}

/-- A return at its place. -/
theorem runs_ret (h : Built settings units rom) (hoccurs : Occurs settings units front c .ret block)
    (hroom : Room caller args) (hframed : Framed caller returnTo args m)
    (hlow : (caller 0).toNat + 5 ≤ (m 0 - 1).toNat) (hhigh : (m 0 - 1).toNat < memorySize) :
    ∃ a' d', Cpu.Runs rom.toList (wordCount front) (wordCount front + wordCount block)
      ⟨⟨m, a, d⟩, wordCount front⟩ ⟨⟨returned m, a', d'⟩, returnTo.toNat⟩ := by
  have hblock : block = leaveFrame ++ [jump .zero .always] := by
    obtain ⟨hblock, -⟩ := program_of_occurs hoccurs
    exact (Except.ok.inj hblock).symm.trans returnBlock_eq
  subst hblock
  have harguments := hroom.arguments
  have hbase : (m 1).toNat = (caller 0).toNat + 5 := by
    rw [hframed.locals]
    exact hroom.toNat_frame le_rfl
  have hreturn : m (m 1 - 5) = returnTo := by
    have hfirst : m 1 - 5 = caller 0 := by
      rw [hframed.locals]
      exact add_sub_cancel_right _ _
    rw [hfirst, hframed.returnTo]
  have hplaced := placed_of_occurs h hoccurs
  rw [wordsOf_append, placedAt_append, length_wordsOf] at hplaced
  obtain ⟨hleave, hjump⟩ := hplaced
  obtain ⟨d', hexecute⟩ :=
    executeAll_leaveFrame (m := m) (a := a) (d := d) h.toAssembled.predefined (by omega)
    (hbase.trans_lt hroom.frame) (hroom.result hframed) ⟨by omega, hhigh⟩
  rw [hreturn] at hexecute
  have hleft := Cpu.runs_of_executeAll leaveFrame hleave hexecute
  have hjumped := Cpu.runs_of_jump (c := ⟨returned m, returnTo, d'⟩)
    (i := { comp := .zero, jump := some .always }) hjump nofun
  rw [if_pos ⟨.always, rfl, trivial⟩] at hjumped
  rw [wordCount_append]
  exact ⟨_, _, (hleft.mono le_rfl (by omega)).trans (hjumped.mono (by omega) le_rfl)⟩

/-- **A return is the inverse of its call.**  A call enters the function with its frame on the
stack.  Whatever has happened since, a return that finds the frame and a word behind it goes to the
place behind the call, with that word as the result and with the segments that the caller had. -/
theorem runs_call_ret (h : Built settings units rom)
    (hcall : Occurs settings units front c (.call name args) block)
    (hname : DeclaredAt (program settings units) name place) (hroom : Room m args) :
    (∃ m' a' d', Cpu.Runs rom.toList (wordCount front) (wordCount front + wordCount block)
      ⟨⟨m, a, d⟩, wordCount front⟩ ⟨⟨m', a', d'⟩, place⟩ ∧
        Entered m (BitVec.ofNat 16 (wordCount front + wordCount block)) args m') ∧
    ∀ front' c' block' m₁ a₁ d₁, Occurs settings units front' c' .ret block' →
      Framed m (BitVec.ofNat 16 (wordCount front + wordCount block)) args m₁ →
      (m 0).toNat + 5 ≤ (m₁ 0 - 1).toNat → (m₁ 0 - 1).toNat < memorySize →
      ∃ m₂ a₂ d₂, Cpu.Runs rom.toList (wordCount front') (wordCount front' + wordCount block')
        ⟨⟨m₁, a₁, d₁⟩, wordCount front'⟩ ⟨⟨m₂, a₂, d₂⟩, wordCount front + wordCount block⟩ ∧
          Returned m args (m₁ (m₁ 0 - 1)) m₁ m₂ := by
  constructor
  · obtain ⟨a', d', hruns⟩ := runs_call (a := a) (d := d) h hcall hname hroom
    exact ⟨_, a', d', hruns, entered_called hroom⟩
  · intro front' c' block' m₁ a₁ d₁ hret hframed hlow hhigh
    obtain ⟨a₂, d₂, hruns⟩ := runs_ret (a := a₁) (d := d₁) h hret hroom hframed hlow hhigh
    rw [toNat_placeBehind h hcall] at hruns
    exact ⟨_, a₂, d₂, hruns, returned_of_framed hroom hframed⟩

end

/-- What memory holds when a seven is about to be returned, where everything was 17 before the
call. -/
def sevenMemory : Memory := fun x =>
  if x = 0 then 23 else if x = 1 then 22 else if x = 17 then 47 else if x = 22 then 7 else 17

/-- The unit that asks for a seven calls the function at its word 52, and the function returns from
its word 59. -/
theorem runs_call_ret_seven : ∃ rom, Built {} sevenUnits rom ∧
    (∃ m' a' d', Cpu.Runs rom.toList 0 47 ⟨⟨fun _ => 17, 0, 0⟩, 0⟩ ⟨⟨m', a', d'⟩, 52⟩ ∧
      Entered (fun _ => 17) 47 0 m') ∧
    ∃ m₂ a₂ d₂, Cpu.Runs rom.toList 59 101 ⟨⟨sevenMemory, 0, 0⟩, 59⟩ ⟨⟨m₂, a₂, d₂⟩, 47⟩ ∧
      Returned (fun _ => 17) 0 7 sevenMemory m₂ := by
  obtain ⟨rom, h⟩ := exists_built_seven
  have hbefore : ((ofUnits {} []).beginUnit "Main").writeAll [⟨1, .label "AGAIN"⟩] =
      (.ok (), ⟨{}, #[Block.label "AGAIN"], { unit := "Main" }⟩) := rfl
  have hcall : Occurs {} sevenUnits [Block.label "AGAIN"] { unit := "Main" } (.call "Main.seven" 0)
      (Context.callBlock { unit := "Main" } "Main.seven" 0) := by
    exact .ofUnit rfl readProgram_seven hbefore rfl
  have hdeclared : DeclaredAt (program {} sevenUnits) "Main.seven" 52 :=
    ⟨sevenFront ++ popD ++ [load "AGAIN", jump .d .ne], _, rfl, rfl⟩
  have hbefore' : ((ofUnits {} []).beginUnit "Main").writeAll
      [⟨1, .label "AGAIN"⟩, ⟨2, .call "Main.seven" 0⟩, ⟨3, .ifGoto "AGAIN"⟩,
        ⟨4, .function "Main.seven" 0⟩, ⟨5, .push .constant 7⟩] =
      (.ok (), ⟨{},
        (sevenFront ++ popD ++ [load "AGAIN", jump .d .ne, Block.label "Main.seven",
          loadConstant 7, set toD .a] ++ pushD).toArray,
        { unit := "Main", function := "Main.seven", calls := 1 }⟩) := rfl
  have hret : Occurs {} sevenUnits
      (sevenFront ++ popD ++ [load "AGAIN", jump .d .ne, Block.label "Main.seven",
        loadConstant 7, set toD .a] ++ pushD)
      { unit := "Main", function := "Main.seven", calls := 1 } .ret Context.returnBlock := by
    exact .ofUnit rfl readProgram_seven hbefore' rfl
  have hframed : Framed (fun _ => 17) 47 0 sevenMemory := ⟨rfl, rfl, rfl, rfl, rfl, rfl, rfl⟩
  obtain ⟨hentered, hreturned⟩ :=
    runs_call_ret (a := 0) (d := 0) (m := fun _ => 17) h hcall hdeclared
    ⟨by decide, by decide⟩
  exact ⟨rom, h, hentered, hreturned _ _ _ _ 0 0 hret hframed (by decide) (by decide)⟩

end JackToolchain.VM
