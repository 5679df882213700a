import JackToolchain.Proofs.Hack.Meaning

/-!
# How far addresses reach

A constant is checked when it is read; an address is not.  A label stands for the number of
instructions in front of it as long as that number is a word, and it can be loaded only as long as
the top bit of the word is clear.  Variables have cells of their own below the screen as long as
there are no more of them than cells.  These conditions are also necessary (`addressesFit_iff`): a
source that does not meet them is assembled all the same.
-/

namespace JackToolchain.Hack

variable {source : String} {lines : List Line} {words : Array Word} {name x y : String}

/-! ### Numbers of variables -/

/-- How many variables a program has. -/
def variableCount (lines : List Line) : Nat := (variableUses lines).toFinset.card

section
variable {xs ys : List String}

theorem notMem_takeWhile_ne (x : String) (xs : List String) : x ∉ xs.takeWhile (· ≠ x) := by
  intro h
  simpa using List.mem_takeWhile_imp h

/-- Of two names one is used first. -/
theorem mem_takeWhile_or (hx : x ∈ xs) (hy : y ∈ xs) (hne : x ≠ y) :
    x ∈ xs.takeWhile (· ≠ y) ∨ y ∈ xs.takeWhile (· ≠ x) := by
  induction xs with
  | nil => exact absurd hx List.not_mem_nil
  | cons z zs ih =>
    by_cases hzx : z = x
    · subst hzx
      rw [takeWhile_ne_cons hne]
      exact .inl List.mem_cons_self
    by_cases hzy : z = y
    · subst hzy
      rw [takeWhile_ne_cons hzx]
      exact .inr List.mem_cons_self
    rw [takeWhile_ne_cons hzx, takeWhile_ne_cons hzy]
    have hx' := (List.mem_cons.mp hx).resolve_left (Ne.symm hzx)
    have hy' := (List.mem_cons.mp hy).resolve_left (Ne.symm hzy)
    exact (ih hx' hy').imp (List.mem_cons_of_mem z) (List.mem_cons_of_mem z)

/-- The names used before an earlier name are among those used before a later one. -/
theorem takeWhile_subset (h : x ∈ xs.takeWhile (· ≠ y)) :
    xs.takeWhile (· ≠ x) ⊆ xs.takeWhile (· ≠ y) := by
  induction xs with
  | nil => exact List.Subset.refl _
  | cons z zs ih =>
    by_cases hzy : z = y
    · subst hzy
      rw [takeWhile_ne_self] at h
      exact absurd h List.not_mem_nil
    by_cases hzx : z = x
    · subst hzx
      rw [takeWhile_ne_self]
      exact List.nil_subset _
    rw [takeWhile_ne_cons hzy] at h ⊢
    rw [takeWhile_ne_cons hzx]
    exact List.cons_subset_cons z (ih ((List.mem_cons.mp h).resolve_left (Ne.symm hzx)))

theorem card_takeWhile_lt (hsub : xs.takeWhile (· ≠ x) ⊆ ys) (hx : x ∈ ys) :
    (xs.takeWhile (· ≠ x)).toFinset.card < ys.toFinset.card := by
  refine Finset.card_lt_card ⟨?_, fun h => ?_⟩
  · intro n hn
    rw [List.mem_toFinset] at hn ⊢
    exact hsub hn
  · exact notMem_takeWhile_ne x xs (List.mem_toFinset.mp (h (List.mem_toFinset.mpr hx)))

end

theorem variableIndex_lt (h : name ∈ variableUses lines) :
    variableIndex lines name < variableCount lines :=
  card_takeWhile_lt (List.takeWhile_prefix _).subset h

/-- Different variables have different numbers. -/
theorem variableIndex_injOn (hx : x ∈ variableUses lines) (hy : y ∈ variableUses lines)
    (h : variableIndex lines x = variableIndex lines y) : x = y := by
  by_contra hne
  rcases mem_takeWhile_or hx hy hne with hfirst | hfirst
  · exact Nat.ne_of_lt (card_takeWhile_lt (takeWhile_subset hfirst) hfirst) h
  · exact Nat.ne_of_gt (card_takeWhile_lt (takeWhile_subset hfirst) hfirst) h

/-- Every number below the number of variables is that of a variable. -/
theorem exists_variable {i : Nat} (h : i < variableCount lines) :
    ∃ name ∈ variableUses lines, variableIndex lines name = i := by
  -- The numbers are different and below their count, so none is left out.
  have himage : (variableUses lines).toFinset.image (variableIndex lines) =
      Finset.range (variableCount lines) := by
    refine Finset.eq_of_subset_of_card_le (fun n hn => ?_) ?_
    · obtain ⟨name, hname, rfl⟩ := Finset.mem_image.mp hn
      exact Finset.mem_range.mpr (variableIndex_lt (List.mem_toFinset.mp hname))
    · rw [Finset.card_range, Finset.card_image_of_injOn]
      · exact Nat.le_refl _
      · intro x hx y hy
        exact variableIndex_injOn (List.mem_toFinset.mp hx) (List.mem_toFinset.mp hy)
  obtain ⟨name, hname, hi⟩ := Finset.mem_image.mp (himage ▸ Finset.mem_range.mpr h)
  exact ⟨name, List.mem_toFinset.mp hname, hi⟩

/-! ### Addresses of a program -/

/-- The addresses that the assembler gives to the symbols of lines. -/
structure Addressed (lines : List Line) (address : String → Word) : Prop where
  fit : LabelsFit lines
  predefined : ∀ s ∈ predefinedSymbols, address s.1 = s.2
  label : ∀ name ∈ labelsOf lines, address name = BitVec.ofNat 16 (labelIndex lines name)
  cell : ∀ name ∈ variableUses lines,
    address name = variableStart + BitVec.ofNat 16 (variableIndex lines name)
  inRange : ∀ s, .statement s ∈ lines → s.InRange

/-- What one expects of addresses: what is loaded has its top bit clear, a label stands for the
index of the next instruction, and variables have different cells below the screen. -/
structure AddressesFit (lines : List Line) (words : List Word) (address : String → Word) :
    Prop where
  loads : ∀ front o behind, lines = front ++ .statement (.load o) :: behind →
    ∃ w, words[wordCount front]? = some w ∧ w.toNat ≤ maxConstant
  labels : ∀ name ∈ labelsOf lines, (address name).toNat = labelIndex lines name
  cells : ∀ x ∈ variableUses lines, address x < screen ∧ ∀ y ∈ variableUses lines,
    address x = address y → x = y

/-- How long a program can be, and how many variables it can have, for its addresses to fit. -/
structure WithinRange (lines : List Line) : Prop where
  labels : ∀ name ∈ labelsOf lines, labelIndex lines name < 65536
  loaded : ∀ name ∈ labelsOf lines, name ∈ lines.filterMap Line.symbol? →
    labelIndex lines name ≤ maxConstant
  count : variableStart.toNat + variableCount lines ≤ screen.toNat

section
variable {address : String → Word} {front behind : List Line} {o : Operand}

/-- The word of a line stands behind the words of the lines in front of it. -/
theorem getElem?_wordsOf {l : Line} {w : Word} (h : l.word? address = some w) :
    (wordsOf address (front ++ l :: behind))[wordCount front]? = some w := by
  rw [wordsOf_append, wordsOf_cons, h, ← length_wordsOf, List.getElem?_append_right (Nat.le_refl _),
    Nat.sub_self]
  rfl

theorem Line.eq_of_symbol? {l : Line} (h : l.symbol? = some name) :
    l = .statement (.load (.symbol name)) := by
  unfold symbol? at h
  split at h <;> cases h
  rfl

theorem mem_symbols (h : lines = front ++ .statement (.load (.symbol name)) :: behind) :
    name ∈ lines.filterMap Line.symbol? :=
  List.mem_filterMap.mpr ⟨.statement (.load (.symbol name)),
    h ▸ List.mem_append_right _ List.mem_cons_self, rfl⟩

/-- A symbol that is used is predefined, a label or a variable. -/
theorem symbol_cases (h : name ∈ lines.filterMap Line.symbol?) :
    name ∈ predefinedNames ∨ name ∈ labelsOf lines ∨ name ∈ variableUses lines := by
  by_cases hpredefined : name ∈ predefinedNames
  · exact .inl hpredefined
  by_cases hlabel : name ∈ labelsOf lines
  · exact .inr (.inl hlabel)
  · exact .inr (.inr (List.mem_filter.mpr ⟨h, decide_eq_true ⟨hpredefined, hlabel⟩⟩))

theorem le_maxConstant_of_predefined (h : Addressed lines address)
    (hname : name ∈ predefinedNames) : (address name).toNat ≤ maxConstant := by
  obtain ⟨s, hs, rfl⟩ := List.mem_map.mp hname
  rw [h.predefined s hs]
  have hall : ∀ s ∈ predefinedSymbols, s.2.toNat ≤ maxConstant := by decide
  exact hall s hs

/-- A variable within range has a cell below the screen. -/
theorem toNat_cell (h : Addressed lines address)
    (hcount : variableStart.toNat + variableCount lines ≤ screen.toNat)
    (hname : name ∈ variableUses lines) :
    (address name).toNat = variableStart.toNat + variableIndex lines name := by
  have hindex := variableIndex_lt hname
  have hstart : variableStart.toNat = 16 := rfl
  have hscreen : screen.toNat = 16384 := rfl
  rw [h.cell name hname, BitVec.toNat_add, BitVec.toNat_ofNat]
  omega

/-- What a program within range loads has its top bit clear. -/
theorem le_maxConstant_of_withinRange (h : Addressed lines address) (hrange : WithinRange lines)
    (hname : name ∈ lines.filterMap Line.symbol?) : (address name).toNat ≤ maxConstant := by
  rcases symbol_cases hname with hpredefined | hlabel | hvariable
  · exact le_maxConstant_of_predefined h hpredefined
  · have hindex := hrange.loaded name hlabel hname
    rw [h.label name hlabel, BitVec.toNat_ofNat]
    exact Nat.le_trans (Nat.mod_le _ _) hindex
  · have hindex := variableIndex_lt hvariable
    have hcount := hrange.count
    have hscreen : screen.toNat ≤ maxConstant := by decide
    rw [toNat_cell h hcount hvariable]
    omega

/-- **Addresses fit if and only if the program is within range.** -/
theorem Addressed.fit_iff (h : Addressed lines address) :
    AddressesFit lines (wordsOf address lines) address ↔ WithinRange lines := by
  constructor
  · intro hfit
    refine ⟨fun name hlabel => ?_, fun name hlabel hname => ?_, ?_⟩
    · rw [← hfit.labels name hlabel]
      exact (address name).isLt
    · -- The label is loaded somewhere, and the word there is its address.
      obtain ⟨l, hl, hsymbol⟩ := List.mem_filterMap.mp hname
      obtain rfl := Line.eq_of_symbol? hsymbol
      obtain ⟨front, behind, hsplit⟩ := List.append_of_mem hl
      obtain ⟨w, hw, hle⟩ := hfit.loads front _ behind hsplit
      have hword : (wordsOf address lines)[wordCount front]? = some (address name) := by
        rw [hsplit]
        exact getElem?_wordsOf rfl
      rw [hword] at hw
      obtain rfl := Option.some.inj hw
      rwa [hfit.labels name hlabel] at hle
    · -- With one variable more, one of them has the first cell of the screen.
      by_contra hcount
      have hstart : variableStart.toNat ≤ screen.toNat := by decide
      have hlast : screen.toNat - variableStart.toNat < variableCount lines := by omega
      obtain ⟨name, hname, hindex⟩ := exists_variable hlast
      have hbelow := (hfit.cells name hname).1
      have hcell : address name = screen := by
        rw [h.cell name hname, hindex]
        rfl
      rw [hcell] at hbelow
      exact absurd hbelow (by decide)
  · intro hrange
    refine ⟨fun front o behind hsplit => ?_, fun name hlabel => ?_,
      fun x hx => ⟨?_, fun y hy heq => ?_⟩⟩
    · rw [hsplit]
      cases o with
      | constant n =>
        refine ⟨_, getElem?_wordsOf rfl, ?_⟩
        have hn : n ≤ maxConstant :=
          h.inRange (.load (.constant n)) (hsplit ▸ List.mem_append_right _ List.mem_cons_self)
        rw [BitVec.toNat_ofNat]
        exact Nat.le_trans (Nat.mod_le _ _) hn
      | symbol name =>
        exact ⟨_, getElem?_wordsOf rfl, le_maxConstant_of_withinRange h hrange (mem_symbols hsplit)⟩
    · rw [h.label name hlabel, BitVec.toNat_ofNat]
      exact Nat.mod_eq_of_lt (hrange.labels name hlabel)
    · have hindex := variableIndex_lt hx
      have hcount := hrange.count
      rw [BitVec.lt_def, toNat_cell h hcount hx]
      omega
    · have hnat := congrArg BitVec.toNat heq
      rw [toNat_cell h hrange.count hx, toNat_cell h hrange.count hy] at hnat
      exact variableIndex_injOn hx hy (Nat.add_left_cancel hnat)

end

/-! ### Assembled sources -/

/-- **The addresses of an assembled source.** -/
theorem addressed_of_assemble (h : assemble source = .ok words) :
    ∃ lines, TokensSay source lines ∧ Addressed lines (addressIn source) ∧
      words.toList = wordsOf (addressIn source) lines := by
  obtain ⟨p, hp, rfl⟩ := assemble_eq_ok_iff.mp h
  obtain ⟨lines, hlines, hadd⟩ := Program.ofSource_iff.mp hp
  have haddress : addressIn source = p.address := by
    funext name
    unfold addressIn
    rw [hp]
  have hfit := (Program.exists_addAll_iff fun s => inRange_of_tokensSay hlines).mp ⟨p, hadd⟩
  rw [haddress]
  refine ⟨lines, hlines, ⟨hfit, fun s hs => ?_, fun name hname => ?_, fun name hname => ?_,
    fun s => inRange_of_tokensSay hlines⟩, ?_⟩
  · exact Program.address_of_symbol (Program.symbols_of_addAll hadd
      (Std.HashMap.getElem?_ofList_of_mem (beq_self_eq_true _) distinct_predefinedSymbols hs))
  · rw [Program.address_of_symbol (Program.symbols_of_label hadd hname)]
    exact congrArg _ (Nat.zero_add _)
  · have huse := (List.mem_filter.mp hname).1
    obtain ⟨hpredefined, hlabel⟩ := of_decide_eq_true (List.mem_filter.mp hname).2
    rw [Program.address_of_addAll hadd huse, addressOf, Program.lookup_eq_none_iff.mpr hpredefined]
    exact if_neg hlabel
  · rw [Program.toList_resolve, Program.wordsOf_of_addAll hadd]
    rfl

/-- Printed statements are read as what they say. -/
theorem tokensSay_linesText {ss : List Statement}
    (hprintable : ∀ s ∈ ss, (Line.statement s).Printable) (hrange : ∀ s ∈ ss, s.InRange) :
    TokensSay (linesText (ss.map .statement)) (ss.map .statement) := by
  obtain ⟨tls, stop, htls, hstop, htokenized⟩ :=
    tokenLines_linesText (List.forall_mem_map.mpr hprintable)
  unfold TokensSay
  rw [htls]
  generalize (linesText (ss.map .statement)).utf8ByteSize = size at hstop
  have hmeans : List.Forall₂ (TokenLine.Says size) tls (ss.map some) := by
    rw [List.forall₂_map_left_iff] at htokenized
    rw [List.forall₂_map_right_iff]
    refine ((List.forall₂_and_left _ _).mpr ⟨hrange, htokenized⟩).flip.imp fun tl s h => ?_
    obtain ⟨hs, hl⟩ := h
    obtain ⟨span, hread⟩ : ∃ span, tl.read size = .ok (some ⟨s, span⟩) := by
      have hread : if s.InRange then _ else _ := hl.read size
      rwa [if_pos hs] at hread
    exact ⟨_, hread, rfl⟩
  have hstop' : (⟨[], stop⟩ : TokenLine).Says size none := ⟨none, if_neg fun h => h.2 hstop, rfl⟩
  refine ⟨ss.map some ++ [none], List.rel_append hmeans (.cons hstop' .nil), ?_⟩
  simp [List.reduceOption]

/-- **The addresses of an assembled source fit if and only if the source is within range.** -/
theorem addressesFit_iff (h : assemble source = .ok words) :
    ∃ lines, TokensSay source lines ∧ words.toList = wordsOf (addressIn source) lines ∧
      (AddressesFit lines words.toList (addressIn source) ↔ WithinRange lines) := by
  obtain ⟨lines, hlines, haddressed, hwords⟩ := addressed_of_assemble h
  refine ⟨lines, hlines, hwords, ?_⟩
  rw [hwords]
  exact haddressed.fit_iff

/-- Statements that use a label, a predefined symbol and two variables. -/
def fourSymbols : List Statement :=
  [.load (.symbol "i"), .label "L", .load (.symbol "SP"), .load (.symbol "j"), .load (.symbol "i"),
    .load (.symbol "L"), .compute ⟨{}, .zero, some .always⟩]

/-- The addresses of a short program fit. -/
theorem addressesFit_four_symbols :
    ∃ words, assemble (linesText (fourSymbols.map .statement)) = .ok words ∧
      AddressesFit (fourSymbols.map .statement) words.toList
        (addressIn (linesText (fourSymbols.map .statement))) := by
  have hprintable : ∀ s ∈ fourSymbols, (Line.statement s).Printable := by
    have hsymbol : IsSymbol "i" ∧ IsSymbol "j" ∧ IsSymbol "L" ∧ IsSymbol "SP" :=
      ⟨⟨'i', [], rfl, rfl, by decide⟩, ⟨'j', [], rfl, rfl, by decide⟩,
        ⟨'L', [], rfl, rfl, by decide⟩, ⟨'S', ['P'], rfl, rfl, by decide⟩⟩
    simp [fourSymbols, Line.Printable, hsymbol]
  have hlines := tokensSay_linesText hprintable (by simp [fourSymbols, Statement.InRange])
  obtain ⟨words, h⟩ :=
    exists_assemble (List.forall_mem_map.mpr hprintable) (by decide) (by decide) (by decide)
  obtain ⟨lines, hlines', -, hiff⟩ := addressesFit_iff h
  obtain rfl := tokensSay_unique hlines hlines'
  exact ⟨words, h, hiff.mpr ⟨by decide, by decide, by decide⟩⟩

/-! ### A label out of range -/

/-- Statements that load a label behind `n` instructions. -/
def loadBehind (n : Nat) : List Statement :=
  List.replicate n (.compute ⟨{}, .zero, none⟩) ++ [.label "L", .load (.symbol "L")]

theorem labelIndex_loadBehind (n : Nat) : labelIndex ((loadBehind n).map .statement) "L" = n := by
  unfold labelIndex loadBehind
  rw [List.map_append, List.map_replicate, List.takeWhile_append_of_pos (by simp)]
  simp [wordCount, Line.wordCount]

theorem le_of_withinRange_loadBehind {n : Nat} (h : WithinRange ((loadBehind n).map .statement)) :
    n ≤ maxConstant := by
  have hlabel : "L" ∈ labelsOf ((loadBehind n).map .statement) :=
    List.mem_filterMap.mpr ⟨.statement (.label "L"), by simp [loadBehind], rfl⟩
  have huse : "L" ∈ ((loadBehind n).map .statement).filterMap Line.symbol? :=
    List.mem_filterMap.mpr ⟨.statement (.load (.symbol "L")), by simp [loadBehind], rfl⟩
  have hindex := h.loaded "L" hlabel huse
  rwa [labelIndex_loadBehind] at hindex

/-- A program of that shape is assembled, whatever its length. -/
theorem assemble_loadBehind (n : Nat) :
    TokensSay (linesText ((loadBehind n).map .statement)) ((loadBehind n).map .statement) ∧
      ∃ words, assemble (linesText ((loadBehind n).map .statement)) = .ok words := by
  have hall {P : Statement → Prop} (hcompute : P (.compute ⟨{}, .zero, none⟩))
      (hlabel : P (.label "L")) (hload : P (.load (.symbol "L"))) : ∀ s ∈ loadBehind n, P s := by
    intro s hs
    rcases List.mem_append.mp hs with hs | hs
    · rwa [List.eq_of_mem_replicate hs]
    · exact List.forall_mem_cons.mpr ⟨hlabel, List.forall_mem_singleton.mpr hload⟩ s hs
  -- The program is too long to be evaluated, but each of its lines can be printed.
  have hsymbol : IsSymbol "L" := ⟨'L', [], rfl, rfl, by decide⟩
  have hprintable : ∀ s ∈ loadBehind n, (Line.statement s).Printable := hall trivial hsymbol hsymbol
  have hconstants : ((loadBehind n).map .statement).filterMap Line.constant? = [] :=
    List.filterMap_eq_nil_iff.mpr (List.forall_mem_map.mpr (hall rfl rfl rfl))
  have hlabels : ((loadBehind n).map .statement).filterMap Line.label? = ["L"] := by
    simp [loadBehind, Line.label?, List.filterMap_replicate]
  refine ⟨tokensSay_linesText hprintable (hall trivial trivial trivial),
    exists_assemble (List.forall_mem_map.mpr hprintable) ?_ ?_ ?_⟩
  · rw [hconstants]
    exact List.forall_mem_nil _
  · rw [hlabels]
    decide
  · rw [hlabels]
    decide

/-- Behind 32768 instructions a label is loaded by a word with its top bit set. -/
theorem addresses_do_not_fit_behind_32768 :
    ∃ words, assemble (linesText ((loadBehind 32768).map .statement)) = .ok words ∧
      TokensSay (linesText ((loadBehind 32768).map .statement))
        ((loadBehind 32768).map .statement) ∧
      ¬ AddressesFit ((loadBehind 32768).map .statement) words.toList
        (addressIn (linesText ((loadBehind 32768).map .statement))) := by
  obtain ⟨hlines, words, h⟩ := assemble_loadBehind 32768
  refine ⟨words, h, hlines, fun hfit => ?_⟩
  obtain ⟨lines, hlines', haddressed, hwords⟩ := addressed_of_assemble h
  obtain rfl := tokensSay_unique hlines hlines'
  rw [hwords] at hfit
  exact absurd (le_of_withinRange_loadBehind (haddressed.fit_iff.mp hfit)) (by decide)

end JackToolchain.Hack
