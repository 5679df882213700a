import JackToolchain.Proofs.Hack.Execution
import JackToolchain.Proofs.Hack.Printing

/-!
# The first pass over printed lines

The text of a list of lines has one line of tokens for each line of the list and an empty one behind
them, which ends with the end of the file and not with a NUL character, since its offset is the size
of the text.  So the first pass over the text is the first pass over the list
(`ofSource_linesText`).

If it succeeds, the instructions of the program are those of the lines in order, no constant is out
of range, and each label stands for the number of words in front of it.
-/

namespace JackToolchain.Hack

/-! ### Offsets -/

section
variable {xs ys : List Char}

theorem foldl_utf8Size (n : Nat) : xs.foldl (fun n c => n + c.utf8Size) n = n + byteLength xs := by
  unfold byteLength
  induction xs generalizing n with
  | nil => rfl
  | cons x xs ih =>
    rw [List.foldl_cons, List.foldl_cons, ih, ih (0 + x.utf8Size)]
    omega

theorem byteLength_append : byteLength (xs ++ ys) = byteLength xs + byteLength ys := by
  unfold byteLength
  rw [List.foldl_append, foldl_utf8Size]
  rfl

theorem byteLength_toList (text : String) : byteLength text.toList = text.utf8ByteSize := by
  obtain ⟨xs, rfl⟩ : ∃ xs, text = String.ofList xs := ⟨text.toList, String.ofList_toList.symm⟩
  rw [String.toList_ofList]
  induction xs with
  | nil => rfl
  | cons x xs ih =>
    have hcons : String.ofList (x :: xs) = String.singleton x ++ String.ofList xs := by
      apply String.toList_injective
      rw [String.toList_append, String.toList_ofList, String.toList_ofList, String.toList_singleton]
      rfl
    have hone : byteLength [x] = x.utf8Size := Nat.zero_add _
    rw [hcons, String.utf8ByteSize_append,
      String.utf8ByteSize_singleton, ← ih, ← hone, ← byteLength_append]
    rfl

end

namespace Cursor

variable {c d : Cursor} {ts : List Token}

/-- Where the source of a cursor ends. -/
def size (c : Cursor) : Nat := c.offset + byteLength c.rest

theorem size_skipWhile (p : Char → Bool) : (c.skipWhile p).size = c.size := by
  unfold size skipWhile
  dsimp only
  rw [Nat.add_assoc, ← byteLength_append, List.takeWhile_append_dropWhile]

theorem size_skipGap : c.skipGap.size = c.size := by
  unfold skipGap
  dsimp only
  split
  · rw [size_skipWhile, size_skipWhile]
  · rw [size_skipWhile]

theorem size_token {kind : TokenKind} {text rest : List Char} (h : c.rest = text ++ rest) :
    (c.token kind text rest).2.size = c.size := by
  unfold size token
  rw [h, byteLength_append]
  exact Nat.add_assoc _ _ _

theorem size_tokenHere : c.tokenHere.2.size = c.size := by
  unfold tokenHere
  split
  · next h => exact size_token h
  · next h => exact size_token h
  · next x rest _ h =>
    have hword (p : Char → Bool) : c.rest = (x :: rest.takeWhile p) ++ rest.dropWhile p := by
      rw [h, List.cons_append, List.takeWhile_append_dropWhile]
    split
    · exact size_token h
    · split
      · exact size_token (hword _)
      · split
        · exact size_token (hword _)
        · exact size_token h

theorem size_next : c.next.2.size = c.size := size_tokenHere.trans size_skipGap

theorem Passes.size_eq (h : Passes c ts d) : d.size = c.size := by
  induction h with
  | nil => rfl
  | @cons c _ _ _ _ hnext _ _ ih =>
    have hsize := size_next (c := c)
    rw [hnext] at hsize
    exact ih.trans hsize

/-- The tokens of a source that is passed whole. -/
theorem tokensFrom_of_passes_all {offset : Nat} (h : Passes c ts ⟨[], offset⟩) :
    ∃ stop, tokensFrom [] c = ts ++ [stop] ∧ stop.kind = .endOfFile ∧ stop.span.stop = c.size := by
  refine ⟨(token ⟨[], offset⟩ .endOfFile [] []).1, ?_, rfl, ?_⟩
  · rw [tokensFrom_of_passes h, tokensFrom]
    have hnext : next ⟨[], offset⟩ = token ⟨[], offset⟩ .endOfFile [] [] := rfl
    rw [hnext, dif_pos ⟨rfl, rfl⟩, List.reverse_cons, List.append_nil, List.reverse_reverse]
  · rw [← h.size_eq]
    rfl

end Cursor

/-! ### Lines of tokens -/

/-- The text of lines, as characters. -/
theorem toList_linesText (lines : List Line) :
    (linesText lines).toList = lines.flatMap fun l => l.text.toList ++ ['\n'] := by
  have hfold (out : String) : (lines.foldl (fun out l => out ++ l.text ++ "\n") out).toList =
      out.toList ++ lines.flatMap fun l => l.text.toList ++ ['\n'] := by
    induction lines generalizing out with
    | nil => simp
    | cons l lines ih =>
      rw [List.foldl_cons, ih, List.flatMap_cons, String.toList_append, String.toList_append]
      simp
  unfold linesText
  rw [hfold]
  rfl

/-- All tokens of a line. -/
def TokenLine.tokens (l : TokenLine) : List Token := l.body ++ [l.stop]

theorem tokenLinesFrom_append {body ts rest : List Token} {done : List TokenLine} {stop : Token}
    (hts : ∀ t ∈ ts, t.kind.endsLine = false) (hstop : stop.kind.endsLine = true) :
    tokenLinesFrom body done (ts ++ stop :: rest) = tokenLinesFrom
      [] (⟨body.reverse ++ ts, stop⟩ :: done) rest := by
  induction ts generalizing body with
  | nil =>
    rw [List.nil_append, tokenLinesFrom, if_pos hstop, List.append_nil]
  | cons t ts ih =>
    obtain ⟨ht, hts⟩ := List.forall_mem_cons.mp hts
    rw [List.cons_append, tokenLinesFrom, ht, if_neg Bool.false_ne_true, ih hts, List.reverse_cons,
      List.append_assoc]
    rfl

theorem tokenLines_append {lines : List TokenLine} {stop : Token}
    (hlines : ∀ l ∈ lines, (∀ t ∈ l.body, t.kind.endsLine = false) ∧ l.stop.kind.endsLine = true)
    (hstop : stop.kind.endsLine = true) :
    tokenLines (lines.flatMap TokenLine.tokens ++ [stop]) = lines ++ [⟨[], stop⟩] := by
  have hfrom (done : List TokenLine) :
      tokenLinesFrom [] done (lines.flatMap TokenLine.tokens ++ [stop]) =
      done.reverse ++ (lines ++ [⟨[], stop⟩]) := by
    induction lines generalizing done with
    | nil =>
      rw [List.flatMap_nil, List.nil_append, tokenLinesFrom, if_pos hstop, tokenLinesFrom,
        List.reverse_cons]
      rfl
    | cons l lines ih =>
      obtain ⟨⟨hbody, hl⟩, hlines⟩ := List.forall_mem_cons.mp hlines
      rw [List.flatMap_cons, TokenLine.tokens, List.append_assoc, List.append_assoc,
        List.singleton_append, tokenLinesFrom_append hbody hl, ih hlines, List.reverse_cons,
        List.append_assoc]
      rfl
  exact hfrom []

/-- The tokens of printed lines. -/
theorem passes_lines {lines : List Line} (h : ∀ l ∈ lines, l.Printable) (offset : Nat) :
    ∃ (tls : List TokenLine) (offset' : Nat),
      Cursor.Passes ⟨lines.flatMap fun l => l.text.toList ++ ['\n'],
        offset⟩ (tls.flatMap TokenLine.tokens) ⟨[], offset'⟩ ∧
      List.Forall₂ (fun l tl => l.TokenizedAs tl.body tl.stop) lines tls := by
  induction lines generalizing offset with
  | nil => exact ⟨[], offset, .nil _, .nil⟩
  | cons l lines ih =>
    obtain ⟨hl, hlines⟩ := List.forall_mem_cons.mp h
    obtain ⟨ts, stop, offset₁, hfirst, htokenized⟩ := l.isRead_of_printable hl
      (lines.flatMap fun l => l.text.toList ++ ['\n']) offset
    obtain ⟨tls, offset₂, hrest, hall⟩ := ih hlines offset₁
    refine ⟨⟨ts, stop⟩ :: tls, offset₂, ?_, .cons htokenized hall⟩
    rw [List.flatMap_cons, List.flatMap_cons, List.append_assoc, List.singleton_append]
    exact hfirst.append hrest

/-- **The lines of tokens of printed lines.** -/
theorem tokenLines_linesText {lines : List Line} (h : ∀ l ∈ lines, l.Printable) :
    ∃ (tls : List TokenLine) (stop : Token),
      tokenLines (tokens (linesText lines)) = tls ++ [⟨[], stop⟩] ∧
      stop.span.stop = (linesText lines).utf8ByteSize ∧
      List.Forall₂ (fun l tl => l.TokenizedAs tl.body tl.stop) lines tls := by
  obtain ⟨tls, offset, hpasses, htokenized⟩ := passes_lines h 0
  obtain ⟨stop, htokens, hkind, hstop⟩ := Cursor.tokensFrom_of_passes_all hpasses
  have hends : stop.kind.endsLine = true := by
    rw [hkind]
    rfl
  have hlines : ∀ tl ∈ tls, (∀ t ∈ tl.body, t.kind.endsLine = false) ∧
      tl.stop.kind.endsLine = true := by
    intro tl htl
    obtain ⟨i, hi, rfl⟩ := List.mem_iff_getElem.mp htl
    have hl := htokenized.get (htokenized.length_eq ▸ hi) hi
    have hending : tls[i].stop.kind = .newline := hl.ending
    refine ⟨hl.body, ?_⟩
    rw [hending]
    rfl
  have hsize : (Cursor.mk (lines.flatMap fun l => l.text.toList ++ ['\n']) 0).size =
      (linesText lines).utf8ByteSize := by
    rw [← byteLength_toList, toList_linesText]
    exact Nat.zero_add _
  have htokens' : tokens (linesText lines) = tls.flatMap TokenLine.tokens ++ [stop] := by
    unfold tokens Cursor.ofSource
    rw [toList_linesText, htokens]
  refine ⟨tls, stop, ?_, hstop.trans hsize, htokenized⟩
  rw [htokens', tokenLines_append hlines hends]

/-! ### The first pass -/

/-- The label that a line declares, if it declares one. -/
def Line.label? : Line → Option String
  | .statement (.label name) => some name
  | _ => none

/-- The constant that a line loads, if it loads one. -/
def Line.constant? : Line → Option Nat
  | .statement (.load (.constant n)) => some n
  | _ => none

namespace Program

/-- Adds a statement, if it is not in error. -/
def addStatement (p : Program) (s : Statement) : Option Program := (p.add ⟨s, default⟩).toOption

/-- Adds the statements of lines, if none of them is in error. -/
def addAll (p : Program) : List Line → Option Program
  | [] => some p
  | .comment _ :: ls => addAll p ls
  | .statement s :: ls => if s.InRange then (p.addStatement s).bind fun p => addAll p ls else none

variable {p p' : Program} {lines : List Line}

theorem toOption_add (s : Statement) (span : Span) :
    (p.add ⟨s, span⟩).toOption = p.addStatement s := by
  unfold addStatement
  cases s with
  | label name =>
    unfold add
    dsimp only
    split <;> rfl
  | load o => rfl
  | compute i => rfl

theorem addLines_of_tokenized {tls : List TokenLine} {stop : Token} {size : Nat}
    (h : List.Forall₂ (fun l tl => l.TokenizedAs tl.body tl.stop) lines tls)
    (hsize : stop.span.stop = size) :
    (p.addLines size (tls ++ [⟨[], stop⟩])).toOption = p.addAll lines := by
  induction h generalizing p with
  | nil =>
    have hread : (⟨[], stop⟩ : TokenLine).read size = .ok none := if_neg fun h => h.2 hsize
    rw [List.nil_append, addLines, hread]
    rfl
  | @cons l tl lines tls hl _ ih =>
    have hread := hl.read size
    rw [List.cons_append, addLines]
    cases l with
    | comment text =>
      replace hread : tl.read size = .ok none := hread
      rw [hread]
      exact ih
    | statement s =>
      unfold addAll
      by_cases hrange : s.InRange
      · obtain ⟨span, hread⟩ : ∃ span, tl.read size = .ok (some ⟨s, span⟩) := by
          replace hread : if s.InRange then _ else _ := hread
          rwa [if_pos hrange] at hread
        rw [if_pos hrange, hread, ← toOption_add s span]
        dsimp only
        cases p.add ⟨s, span⟩ with
        | error e => rfl
        | ok p => exact ih
      · obtain ⟨e, hread⟩ : ∃ e, tl.read size = .error e := by
          replace hread : if s.InRange then _ else _ := hread
          rwa [if_neg hrange] at hread
        rw [if_neg hrange, hread]
        rfl

/-- **The first pass over a text is the first pass over its lines.** -/
theorem ofSource_linesText (h : ∀ l ∈ lines, l.Printable) :
    (ofSource (linesText lines)).toOption = addAll {} lines := by
  obtain ⟨tls, stop, htls, hstop, htokenized⟩ := tokenLines_linesText h
  unfold ofSource
  rw [htls]
  exact addLines_of_tokenized htokenized hstop

/-! ### What the first pass collects -/

theorem addAll_append {xs ys : List Line} :
    p.addAll (xs ++ ys) = (p.addAll xs).bind fun p => p.addAll ys := by
  induction xs generalizing p with
  | nil => rfl
  | cons l xs ih =>
    cases l with
    | comment text => exact ih
    | statement s =>
      rw [List.cons_append, addAll, addAll]
      split
      · rw [Option.bind_assoc]
        congr 1
        funext p
        exact ih
      · rfl

/-- **What adding a statement does.** -/
theorem addStatement_cases {s : Statement} (h : p.addStatement s = some p') :
    (∃ name, s = .label name ∧ p.symbols[name]? = none ∧
      p' = ⟨p.instructions, p.symbols.insert name (BitVec.ofNat 16 p.instructions.size)⟩) ∨
    ((∀ name, s ≠ .label name) ∧ p' = ⟨p.instructions.push s, p.symbols⟩) := by
  cases s with
  | label name =>
    unfold addStatement add at h
    dsimp only at h
    split at h
    · cases h
    · next hfree =>
      exact .inl ⟨name, rfl, Std.HashMap.getElem?_eq_none (by simpa using hfree),
        (Option.some.inj h).symm⟩
  | load o => exact .inr ⟨nofun, (Option.some.inj h).symm⟩
  | compute i => exact .inr ⟨nofun, (Option.some.inj h).symm⟩

theorem addStatement_label {name : String} (hfree : p.symbols[name]? = none) :
    p.addStatement (.label name) =
      some ⟨p.instructions, p.symbols.insert name (BitVec.ofNat 16 p.instructions.size)⟩ := by
  have hcontains : p.symbols.contains name = false := by
    rw [Std.HashMap.contains_eq_isSome_getElem?, hfree]
    rfl
  unfold addStatement add
  dsimp only
  rw [if_neg (by simp [hcontains])]
  rfl

/-- What every statement of a pass preserves holds behind the pass. -/
theorem addAll_induction {motive : Program → List Line → Program → Prop} (hnil : ∀ p, motive p [] p)
    (hcomment : ∀ p text ls p', motive p ls p' → motive p (.comment text :: ls) p')
    (hstatement : ∀ p s p₁ ls p', s.InRange → p.addStatement s = some p₁ → motive p₁ ls p' →
      motive p (.statement s :: ls) p') (h : p.addAll lines = some p') : motive p lines p' := by
  induction lines generalizing p with
  | nil =>
    obtain rfl := Option.some.inj h
    exact hnil _
  | cons l ls ih =>
    cases l with
    | comment text => exact hcomment _ _ _ _ (ih h)
    | statement s =>
      obtain ⟨hrange, h⟩ := Option.ite_none_right_eq_some.mp h
      obtain ⟨p₁, hs, hrest⟩ := Option.bind_eq_some_iff.mp h
      exact hstatement _ _ _ _ _ hrange hs (ih hrest)

/-- An address that a symbol has is kept. -/
theorem symbols_of_addAll {name : String} {a : Word} (h : p.addAll lines = some p')
    (hname : p.symbols[name]? = some a) : p'.symbols[name]? = some a := by
  revert hname
  refine addAll_induction (motive := fun p _ p' => p.symbols[name]? = some a →
    p'.symbols[name]? = some a)
    (fun _ h => h) (fun _ _ _ _ ih => ih) (fun p s p₁ ls p' _ hs ih hname => ih ?_) h
  rcases addStatement_cases hs with ⟨name', -, hfree, rfl⟩ | ⟨-, rfl⟩
  · have hne : name' ≠ name := by
      rintro rfl
      rw [hfree] at hname
      cases hname
    rwa [Std.HashMap.getElem?_insert, if_neg (by simpa using hne)]
  · exact hname

/-- There is an instruction for each word. -/
theorem size_of_addAll (h : p.addAll lines = some p') :
    p'.instructions.size = p.instructions.size + wordCount lines := by
  refine addAll_induction
    (motive := fun p lines p' => p'.instructions.size = p.instructions.size + wordCount lines)
    (fun _ => rfl) (fun p _ ls p' ih => ?_) (fun p s p₁ ls p' _ hs ih => ?_) h
  · rw [ih, wordCount_cons]
    exact congrArg _ (Nat.zero_add _).symm
  · rw [ih, wordCount_cons]
    rcases addStatement_cases hs with ⟨name, rfl, -, rfl⟩ | ⟨hother, rfl⟩
    · simp [Line.wordCount]
    · have hone : (Line.statement s).wordCount = 1 := by
        cases s with
        | label name => exact absurd rfl (hother name)
        | load o => rfl
        | compute i => rfl
      rw [Array.size_push, hone]
      omega

/-- The instructions have the words of the lines. -/
theorem wordsOf_of_addAll {address : String → Word} (h : p.addAll lines = some p') :
    wordsOf address (p'.instructions.toList.map .statement) =
      wordsOf address (p.instructions.toList.map .statement) ++ wordsOf address lines := by
  refine addAll_induction (motive := fun p lines p' =>
    wordsOf address (p'.instructions.toList.map .statement) =
      wordsOf address (p.instructions.toList.map .statement) ++ wordsOf address lines)
    (fun p => ?_) (fun p _ ls p' ih => ih) (fun p s p₁ ls p' _ hs ih => ?_) h
  · exact (List.append_nil _).symm
  · rw [ih, ← List.singleton_append (l := ls), wordsOf_append]
    rcases addStatement_cases hs with ⟨name, rfl, -, rfl⟩ | ⟨-, rfl⟩
    · rfl
    · rw [Array.toList_push, List.map_append, wordsOf_append, List.append_assoc, List.map_singleton]

theorem inRange_of_addAll (h : p.addAll lines = some p') {s : Statement}
    (hs : .statement s ∈ lines) : s.InRange := by
  revert hs
  refine addAll_induction (motive := fun _ lines _ => .statement s ∈ lines → s.InRange)
    (fun _ h => absurd h List.not_mem_nil) (fun p text ls p' ih hs => ?_)
    (fun p s' p₁ ls p' hrange _ ih hs => ?_) h
  · exact ih ((List.mem_cons.mp hs).resolve_left nofun)
  · rcases List.mem_cons.mp hs with heq | hs
    · cases heq
      exact hrange
    · exact ih hs

/-- **A label stands for the number of words in front of it.** -/
theorem label_of_addAll {front behind : List Line} {name : String}
    (h : p.addAll (front ++ .statement (.label name) :: behind) = some p') :
    p'.symbols[name]? = some (BitVec.ofNat 16 (p.instructions.size + wordCount front)) := by
  rw [addAll_append] at h
  obtain ⟨p₁, hfront, hrest⟩ := Option.bind_eq_some_iff.mp h
  obtain ⟨-, hrest⟩ := Option.ite_none_right_eq_some.mp hrest
  obtain ⟨p₂, hlabel, hbehind⟩ := Option.bind_eq_some_iff.mp hrest
  refine symbols_of_addAll hbehind ?_
  rcases addStatement_cases hlabel with ⟨name', hname, -, rfl⟩ | ⟨hname, -⟩
  · cases hname
    rw [Std.HashMap.getElem?_insert_self, size_of_addAll hfront]
  · exact absurd rfl (hname name)

/-- Lines are passed over without an error if their labels are distinct and new and their constants
in range. -/
theorem exists_addAll (hrange : ∀ n ∈ lines.filterMap Line.constant?, n ≤ maxConstant)
    (hdistinct : (lines.filterMap Line.label?).Nodup)
    (hnew : ∀ name ∈ lines.filterMap Line.label?, p.symbols[name]? = none) :
    ∃ p', p.addAll lines = some p' := by
  induction lines generalizing p with
  | nil => exact ⟨p, rfl⟩
  | cons l ls ih =>
    cases l with
    | comment text => exact ih hrange hdistinct hnew
    | statement s =>
      cases s with
      | label name =>
        have hrange' : (Statement.label name).InRange := trivial
        rw [addAll, if_pos hrange']
        have hfree : p.symbols[name]? = none := hnew name List.mem_cons_self
        obtain ⟨hname, hdistinct⟩ := List.nodup_cons.mp hdistinct
        rw [addStatement_label hfree]
        refine ih hrange hdistinct fun name' hname' => ?_
        have hne : name ≠ name' := fun heq => hname (heq ▸ hname')
        rw [Std.HashMap.getElem?_insert, if_neg (by simpa using hne)]
        exact hnew name' (List.mem_cons_of_mem _ hname')
      | load o =>
        cases o with
        | symbol name => exact ih hrange hdistinct hnew
        | constant n =>
          obtain ⟨hn, hrange⟩ := List.forall_mem_cons.mp hrange
          have hrange' : (Statement.load (.constant n)).InRange := hn
          rw [addAll, if_pos hrange']
          exact ih hrange hdistinct hnew
      | compute i => exact ih hrange hdistinct hnew

end Program

end JackToolchain.Hack
