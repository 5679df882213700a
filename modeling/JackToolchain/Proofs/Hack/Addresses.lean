import JackToolchain.Proofs.Hack.Assembled
import JackToolchain.Proofs.Hack.Reference

/-!
# The addresses of symbols

The first pass gives a label the number of words in front of it, and refuses a label that has an
address.  The second pass gives an address to a symbol that has none when the symbol is used for the
first time.  What both passes come to is `addressOf`: the words of lines are their words at these
addresses (`Program.resolve_of_addAll`).
-/

namespace JackToolchain.Hack

variable {lines : List Line} {name : String}

/-! ### Variables -/

/-- The uses of symbols without an address, in order. -/
def newUses (symbols : Std.HashMap String Word) (lines : List Line) : List String :=
  (lines.filterMap Line.symbol?).filter fun name => symbols[name]?.isNone

section
variable {symbols : Std.HashMap String Word} {free : Word} {ss : List Statement} {xs : List String}
  {n : String}

theorem newUses_cons_of_some {a : Word} (h : symbols[n]? = some a) :
    newUses symbols (.statement (.load (.symbol n)) :: lines) = newUses symbols lines := by
  unfold newUses
  rw [List.filterMap_cons_some (f := Line.symbol?) rfl,
    List.filter_cons_of_neg (by rw [h]; exact Bool.false_ne_true)]

theorem newUses_cons_of_none (h : symbols[n]? = none) :
    newUses symbols (.statement (.load (.symbol n)) :: lines) = n :: newUses symbols lines := by
  unfold newUses
  rw [List.filterMap_cons_some (f := Line.symbol?) rfl, List.filter_cons_of_pos (by rw [h]; rfl)]

theorem newUses_insert (symbols : Std.HashMap String Word) (free : Word) (n : String) :
    newUses (symbols.insert n free) lines = (newUses symbols lines).filter (· ≠ n) := by
  unfold newUses
  rw [List.filter_filter]
  congr 1
  funext name
  rw [Std.HashMap.getElem?_insert]
  by_cases h : n = name
  · subst h
    rw [if_pos (beq_self_eq_true n), decide_eq_false (not_not_intro rfl)]
    rfl
  · rw [if_neg (by simpa using h), decide_eq_true (Ne.symm h)]
    rfl

theorem takeWhile_ne_cons (h : n ≠ name) :
    (n :: xs).takeWhile (· ≠ name) = n :: xs.takeWhile (· ≠ name) :=
  List.takeWhile_cons_of_pos (by simpa using h)

theorem takeWhile_ne_self (n : String) (xs : List String) : (n :: xs).takeWhile (· ≠ n) = [] :=
  List.takeWhile_cons_of_neg (by simp)

theorem filter_ne_cons (h : name ≠ n) : (name :: xs).filter (· ≠ n) = name :: xs.filter (· ≠ n) :=
  List.filter_cons_of_pos (by simpa using h)

theorem filter_ne_self (n : String) (xs : List String) :
    (n :: xs).filter (· ≠ n) = xs.filter (· ≠ n) :=
  List.filter_cons_of_neg (by simp)

theorem takeWhile_filter_ne (h : name ≠ n) :
    (xs.filter (· ≠ n)).takeWhile (· ≠ name) = (xs.takeWhile (· ≠ name)).filter (· ≠ n) := by
  induction xs with
  | nil => rfl
  | cons x xs ih =>
    by_cases hx : x = n
    · subst hx
      rw [filter_ne_self, ih, takeWhile_ne_cons h.symm, filter_ne_self]
    · by_cases hname : x = name
      · subst hname
        rw [filter_ne_cons hx, takeWhile_ne_self, takeWhile_ne_self, List.filter_nil]
      · rw [filter_ne_cons hx, takeWhile_ne_cons hname, ih, takeWhile_ne_cons hname,
          filter_ne_cons hx]

/-- A name that comes first counts once. -/
theorem card_cons (n : String) (xs : List String) :
    (n :: xs).toFinset.card = (xs.filter (· ≠ n)).toFinset.card + 1 := by
  have hcons : (n :: xs).toFinset = insert n (xs.filter (· ≠ n)).toFinset := by
    ext x
    by_cases hx : x = n <;> simp [hx]
  rw [hcons, Finset.card_insert_of_notMem (by simp)]

/-- **A variable gets the next address when it is used for the first time.** -/
theorem symbolsFrom_of_newUse (hname : name ∈ newUses symbols (ss.map .statement)) :
    (Program.symbolsFrom symbols free ss)[name]? =
      some (free + BitVec.ofNat 16
        ((newUses symbols (ss.map .statement)).takeWhile (· ≠ name)).toFinset.card) := by
  fun_induction Program.symbolsFrom symbols free ss with
  | case1 => exact absurd hname List.not_mem_nil
  | case2 symbols free n rest a ha ih =>
    rw [List.map_cons, newUses_cons_of_some ha] at hname ⊢
    exact ih hname
  | case3 symbols free n rest hfree ih =>
    rw [List.map_cons, newUses_cons_of_none hfree] at hname ⊢
    -- If `n` is another variable, all variables behind it count it.
    by_cases h : name = n
    · subst h
      rw [takeWhile_ne_self, Program.symbolsFrom_of_some Std.HashMap.getElem?_insert_self]
      simp
    · have hrest : name ∈ (newUses symbols (rest.map .statement)).filter (· ≠ n) :=
        List.mem_filter.mpr ⟨(List.mem_cons.mp hname).resolve_left h, decide_eq_true h⟩
      rw [newUses_insert] at ih
      rw [ih hrest, takeWhile_filter_ne h, takeWhile_ne_cons (Ne.symm h), card_cons, Nat.add_comm,
        BitVec.ofNat_add, BitVec.add_assoc]
      rfl
  | case4 symbols free s rest hother ih =>
    have hnone : Line.symbol? (.statement s) = none := by
      cases s with
      | label | compute => rfl
      | load operand =>
        cases operand with
        | constant => rfl
        | symbol n => exact absurd rfl (hother n)
    have hcons : newUses symbols ((s :: rest).map .statement) =
        newUses symbols (rest.map .statement) := by
      unfold newUses
      rw [List.map_cons, List.filterMap_cons_none hnone]
    rw [hcons] at hname ⊢
    exact ih hname

end

/-! ### Labels -/

theorem Line.eq_of_label? {l : Line} (h : l.label? = some name) : l = .statement (.label name) := by
  unfold label? at h
  split at h <;> cases h
  rfl

namespace Program

variable {p p' : Program}

/-- Labels that are passed over are distinct and had no addresses. -/
theorem labels_of_addAll (h : p.addAll lines = some p') :
    (labelsOf lines).Nodup ∧ ∀ name ∈ labelsOf lines, p.symbols[name]? = none := by
  refine addAll_induction
    (motive := fun p lines _ =>
      (labelsOf lines).Nodup ∧ ∀ name ∈ labelsOf lines, p.symbols[name]? = none)
    (fun _ => ⟨List.nodup_nil, fun _ h => absurd h List.not_mem_nil⟩) (fun _ _ _ _ ih => ih)
    (fun p s p₁ ls p' _ hs ih => ?_) h
  obtain ⟨hdistinct, hnew⟩ := ih
  rcases addStatement_cases hs with ⟨name, rfl, hfree, rfl⟩ | ⟨hother, rfl⟩
  · -- Behind the label its name has an address, so it is not declared again.
    have hlabels : labelsOf (.statement (.label name) :: ls) = name :: labelsOf ls := rfl
    have hold : ∀ name' ∈ labelsOf ls, name' ≠ name ∧ p.symbols[name']? = none := by
      intro name' hname'
      have hnone := hnew name' hname'
      rw [Std.HashMap.getElem?_insert] at hnone
      split at hnone
      · cases hnone
      · next hne => exact ⟨fun heq => hne (by simp [heq]), hnone⟩
    rw [hlabels]
    refine ⟨List.nodup_cons.mpr ⟨fun hname => (hold name hname).1 rfl, hdistinct⟩, ?_⟩
    exact List.forall_mem_cons.mpr ⟨hfree, fun name' hname' => (hold name' hname').2⟩
  · have hlabels : labelsOf (.statement s :: ls) = labelsOf ls := by
      cases s with
      | label name => exact absurd rfl (hother name)
      | load | compute => rfl
    rw [hlabels]
    exact ⟨hdistinct, hnew⟩

/-- A symbol that is no label gets no address in the first pass. -/
theorem symbols_of_addAll_of_notMem (h : p.addAll lines = some p') (hname : name ∉ labelsOf lines) :
    p'.symbols[name]? = p.symbols[name]? := by
  revert hname
  refine addAll_induction (motive := fun p lines p' => name ∉ labelsOf lines →
    p'.symbols[name]? = p.symbols[name]?)
    (fun _ _ => rfl) (fun _ _ _ _ ih => ih) (fun p s p₁ ls p' _ hs ih hname => ?_) h
  rcases addStatement_cases hs with ⟨name', rfl, -, rfl⟩ | ⟨hother, rfl⟩
  · have hlabels : labelsOf (.statement (.label name') :: ls) = name' :: labelsOf ls := rfl
    rw [hlabels, List.mem_cons, not_or] at hname
    rw [ih hname.2, Std.HashMap.getElem?_insert, if_neg (by simpa using Ne.symm hname.1)]
  · refine ih fun hmem => hname ?_
    cases s with
    | label name => exact absurd rfl (hother name)
    | load | compute => exact hmem

/-- The instructions use the symbols of the lines. -/
theorem uses_of_addAll (h : p.addAll lines = some p') :
    (p'.instructions.toList.map .statement).filterMap Line.symbol? =
      (p.instructions.toList.map .statement).filterMap Line.symbol?
        ++ lines.filterMap Line.symbol? := by
  refine addAll_induction (motive := fun p lines p' =>
    (p'.instructions.toList.map .statement).filterMap Line.symbol? =
      (p.instructions.toList.map .statement).filterMap Line.symbol? ++ lines.filterMap Line.symbol?)
    (fun p => (List.append_nil _).symm) (fun _ _ _ _ ih => ih) (fun p s p₁ ls p' _ hs ih => ?_) h
  rw [ih, ← List.singleton_append (l := ls), List.filterMap_append]
  rcases addStatement_cases hs with ⟨name, rfl, -, rfl⟩ | ⟨-, rfl⟩
  · rfl
  · rw [Array.toList_push, List.map_append, List.filterMap_append, List.append_assoc,
      List.map_singleton]

/-! ### Addresses -/

/-- The words of lines depend on the addresses of the symbols in them only. -/
theorem wordsOf_congr {f g : String → Word}
    (h : ∀ name ∈ lines.filterMap Line.symbol?, f name = g name) :
    wordsOf f lines = wordsOf g lines := by
  refine List.filterMap_congr fun l hl => ?_
  match l with
  | .comment _ | .statement (.label _) | .statement (.load (.constant _))
    | .statement (.compute _) => rfl
  | .statement (.load (.symbol name)) =>
    exact congrArg some (h name (List.mem_filterMap.mpr ⟨_, hl, rfl⟩))

/-- Before the first pass the predefined symbols have addresses. -/
theorem symbols_eq_lookup (name : String) :
    ({} : Program).symbols[name]? = predefinedSymbols.lookup name := by
  cases h : predefinedSymbols.lookup name with
  | some a =>
    obtain ⟨front, behind, hsplit, -⟩ := List.lookup_eq_some_iff.mp h
    have hmem : (name, a) ∈ predefinedSymbols := hsplit ▸ List.mem_append_right _ List.mem_cons_self
    exact Std.HashMap.getElem?_ofList_of_mem (beq_self_eq_true _) distinct_predefinedSymbols hmem
  | none =>
    have hnone := List.lookup_eq_none_iff.mp h
    refine Std.HashMap.getElem?_ofList_of_contains_eq_false ?_
    simp only [List.contains_eq_mem, decide_eq_false_iff_not, List.mem_map, not_exists, not_and]
    intro p hp heq
    simpa [heq] using hnone p hp

theorem lookup_eq_none_iff : predefinedSymbols.lookup name = none ↔ name ∉ predefinedNames := by
  rw [List.lookup_eq_none_iff]
  simp only [bne_iff_ne, ne_eq, predefinedNames, List.mem_map, not_exists, not_and]
  exact forall₂_congr fun _ _ => not_congr eq_comm

/-- The address of a label. -/
theorem symbols_of_label (h : p.addAll lines = some p') (hname : name ∈ labelsOf lines) :
    p'.symbols[name]? = some (BitVec.ofNat 16 (p.instructions.size + labelIndex lines name)) := by
  obtain ⟨l, hl, hlabel⟩ := List.mem_filterMap.mp hname
  obtain rfl := Line.eq_of_label? hlabel
  -- The lines are divided at the declaration of the label.
  have hsplit : lines = lines.takeWhile (· ≠ .statement (.label name)) ++
      lines.dropWhile (· ≠ .statement (.label name)) := List.takeWhile_append_dropWhile.symm
  cases hdrop : lines.dropWhile (· ≠ .statement (.label name)) with
  | nil => exact absurd rfl (of_decide_eq_true (List.dropWhile_eq_nil_iff.mp hdrop _ hl))
  | cons l behind =>
    have hhead := List.head?_dropWhile_not (· ≠ .statement (.label name)) lines
    rw [hdrop] at hsplit hhead
    obtain rfl : l = .statement (.label name) := by simpa using hhead
    rw [hsplit] at h
    exact label_of_addAll h

/-- **The address of a symbol** behind both passes. -/
theorem address_of_addAll (h : addAll {} lines = some p)
    (huse : name ∈ lines.filterMap Line.symbol?) : p.address name = addressOf lines name := by
  unfold addressOf
  cases hlookup : predefinedSymbols.lookup name with
  | some a => exact address_of_symbol (symbols_of_addAll h ((symbols_eq_lookup name).trans hlookup))
  | none =>
    dsimp only
    by_cases hlabel : name ∈ labelsOf lines
    · rw [if_pos hlabel, address_of_symbol (symbols_of_label h hlabel)]
      exact congrArg _ (Nat.zero_add _)
    · -- The symbols that have no address behind the first pass are neither predefined nor labels.
      have huses : newUses p.symbols (p.instructions.toList.map .statement) =
          variableUses lines := by
        unfold newUses variableUses
        rw [uses_of_addAll h]
        refine List.filter_congr fun n _ => ?_
        rw [Bool.eq_iff_iff, Option.isNone_iff_eq_none, decide_eq_true_iff, ← lookup_eq_none_iff]
        by_cases hn : n ∈ labelsOf lines
        · rw [symbols_of_label h hn]
          exact ⟨nofun, fun hnew => absurd hn hnew.2⟩
        · rw [symbols_of_addAll_of_notMem h hn, symbols_eq_lookup]
          exact (and_iff_left hn).symm
      have hvariable : name ∈ variableUses lines :=
        List.mem_filter.mpr ⟨huse, decide_eq_true ⟨lookup_eq_none_iff.mp hlookup, hlabel⟩⟩
      rw [if_neg hlabel, variableIndex, ← huses]
      unfold address
      rw [symbolsFrom_of_newUse (huses ▸ hvariable)]
      rfl

theorem resolve_of_addAll (h : addAll {} lines = some p) :
    p.resolve.toList = wordsOf (addressOf lines) lines := by
  have hwords : p.resolve.toList = wordsOf p.address lines := by
    rw [toList_resolve, wordsOf_of_addAll h]
    rfl
  rw [hwords]
  exact wordsOf_congr fun name hname => address_of_addAll h hname

end Program

end JackToolchain.Hack
