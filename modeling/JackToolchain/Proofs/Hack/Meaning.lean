import JackToolchain.Proofs.Hack.Addresses
import JackToolchain.Proofs.Hack.LineReading
import JackToolchain.Proofs.Hack.Reader

/-!
# The assembler gives a source its meaning

A source is assembled if each of its lines says something and the labels fit, and its words are then
those of the lines at the addresses of the symbols.  For the lines that the assembler makes of its
tokens this holds of every source (`assemble_iff`).  They are the stretches of the source
(`tokensSay_iff_stretchesSay`), and without NUL characters these are its lines
(`assemble_iff_reads`); with them, `assemble_iff_stretches` says what is assembled.  Both hold of
reading with offsets of 32 bits, too, if the size of the source fits into them.
-/

namespace JackToolchain.Hack

variable {source : String} {lines : List Line} {words : Array Word}

/-! ### The lines that are assembled -/

/-- What a line of tokens is read as. -/
def TokenLine.Says (size : Nat) (l : TokenLine) (s : Option Statement) : Prop :=
  ∃ r, l.read size = .ok r ∧ r.map (·.statement) = s

/-- The lines of a program that the tokens of a source are read as. -/
def TokensSay (source : String) (lines : List Line) : Prop :=
  ∃ contents,
    List.Forall₂ (TokenLine.Says source.utf8ByteSize) (tokenLines (tokens source)) contents ∧
    lines = contents.reduceOption.map .statement

/-- Constants that are read are in range. -/
theorem inRange_of_read {size : Nat} {l : TokenLine} {ls : LocatedStatement}
    (h : l.read size = .ok (some ls)) : ls.statement.InRange := by
  obtain ⟨body, stop⟩ := l
  cases body with
  | nil =>
    unfold TokenLine.read at h
    dsimp only at h
    split at h <;> cases h
  | cons t ts =>
    rw [read_cons] at h
    obtain ⟨ls', hls, heq⟩ := of_map_eq_ok h
    obtain rfl := Option.some.inj heq
    split at hls
    · obtain ⟨o, ho, -, hload⟩ := TokenLine.operand_of_readLoad hls
      rw [hload]
      rcases TokenLine.readOperand_eq_ok ho with ⟨-, rfl⟩ | ⟨-, hvalue, rfl⟩
      · trivial
      · exact hvalue
    · obtain ⟨-, -, -, hlabel⟩ := TokenLine.parts_of_readLabel hls
      rw [hlabel]
      trivial
    · cases hls
    · obtain ⟨i, -, hcompute⟩ := TokenLine.readCompute_eq_ok hls
      rw [hcompute]
      trivial

theorem says_iff {size : Nat} {l : TokenLine} {r : Option LocatedStatement}
    (hread : l.read size = .ok r) {s : Option Statement} :
    l.Says size s ↔ r.map (·.statement) = s := by
  unfold TokenLine.Says
  rw [hread]
  constructor
  · rintro ⟨r', hr, hs⟩
    exact Except.ok.inj hr ▸ hs
  · exact fun hs => ⟨r, rfl, hs⟩

/-- A statement that has been read is added before the contents of the other lines. -/
theorem Program.addAll_of_read {size : Nat} {l : TokenLine} {ls : LocatedStatement} {p : Program}
    (hread : l.read size = .ok (some ls)) (contents : List (Option Statement)) :
    p.addAll ((some ls.statement :: contents).reduceOption.map .statement) =
      (p.add ls).toOption.bind fun p => p.addAll (contents.reduceOption.map .statement) := by
  show p.addAll (.statement ls.statement :: contents.reduceOption.map .statement) = _
  rw [addAll, if_pos (inRange_of_read hread), ← toOption_add ls.statement ls.span]

/-- A line that has been read has one content, in front of the contents of the other lines. -/
theorem exists_says_cons {size : Nat} {l : TokenLine} {tls : List TokenLine}
    {r : Option LocatedStatement} (hread : l.read size = .ok r)
    {P : List (Option Statement) → Prop} :
    (∃ contents, List.Forall₂ (TokenLine.Says size) (l :: tls) contents ∧ P contents) ↔
      ∃ contents, List.Forall₂ (TokenLine.Says size) tls contents ∧
        P (r.map (·.statement) :: contents) := by
  constructor
  · rintro ⟨_, hcontents, hP⟩
    obtain ⟨s, contents, hs, hrest, rfl⟩ := List.forall₂_cons_left_iff.mp hcontents
    obtain rfl := (says_iff hread).mp hs
    exact ⟨contents, hrest, hP⟩
  · rintro ⟨contents, hrest, hP⟩
    exact ⟨_, .cons ((says_iff hread).mpr rfl) hrest, hP⟩

/-- **The first pass** over lines of tokens. -/
theorem Program.addLines_iff {size : Nat} {tls : List TokenLine} {p p' : Program} :
    p.addLines size tls = .ok p' ↔
      ∃ contents, List.Forall₂ (TokenLine.Says size) tls contents ∧
        p.addAll (contents.reduceOption.map .statement) = some p' := by
  induction tls generalizing p with
  | nil =>
    constructor
    · intro h
      cases h
      exact ⟨[], .nil, rfl⟩
    · rintro ⟨contents, hcontents, h⟩
      cases hcontents
      cases h
      rfl
  | cons l tls ih =>
    rw [addLines]
    cases hread : l.read size with
    | error e =>
      constructor
      · intro h
        cases h
      · rintro ⟨contents, hcontents, -⟩
        obtain ⟨s, rest, ⟨r, hr, -⟩, -⟩ := List.forall₂_cons_left_iff.mp hcontents
        cases hread.symm.trans hr
    | ok r =>
      rw [exists_says_cons hread]
      cases r with
      | none => exact ih
      | some ls =>
        have hadd := addAll_of_read (p := p) hread
        dsimp only [Option.map_some]
        cases hp : p.add ls with
        | error e =>
          constructor
          · intro h
            cases h
          · rintro ⟨contents, -, h⟩
            rw [hadd, hp] at h
            cases h
        | ok p₁ =>
          have hrest (contents : List (Option Statement)) :
              p.addAll ((some ls.statement :: contents).reduceOption.map .statement) =
                p₁.addAll (contents.reduceOption.map .statement) := by
            rw [hadd, hp]
            rfl
          simp only [hrest]
          exact ih

theorem assemble_eq_ok_iff :
    assemble source = .ok words ↔ ∃ p, Program.ofSource source = .ok p ∧ p.resolve = words := by
  unfold assemble assembleWithRecords
  cases Program.ofSource source with
  | error e => exact ⟨nofun, fun ⟨p, hp, _⟩ => nomatch hp⟩
  | ok p =>
    constructor
    · intro h
      exact ⟨p, rfl, Except.ok.inj h⟩
    · rintro ⟨p', hp, rfl⟩
      cases hp
      rfl

theorem Line.eq_of_constant? {l : Line} {n : Nat} (h : l.constant? = some n) :
    l = .statement (.load (.constant n)) := by
  unfold constant? at h
  split at h <;> cases h
  rfl

/-- Lines are passed over if their labels fit. -/
theorem Program.exists_addAll_iff (hrange : ∀ s, .statement s ∈ lines → s.InRange) :
    (∃ p, addAll {} lines = some p) ↔ LabelsFit lines := by
  have hfree {name : String} : ({} : Program).symbols[name]? = none ↔ name ∉ predefinedNames := by
    rw [symbols_eq_lookup, lookup_eq_none_iff]
  constructor
  · rintro ⟨p, hp⟩
    obtain ⟨hdistinct, hnew⟩ := labels_of_addAll hp
    exact ⟨hdistinct, fun name hname => hfree.mp (hnew name hname)⟩
  · rintro ⟨hdistinct, hnew⟩
    refine exists_addAll (fun n hn => ?_) hdistinct fun name hname => hfree.mpr (hnew name hname)
    obtain ⟨l, hl, hconstant⟩ := List.mem_filterMap.mp hn
    obtain rfl := Line.eq_of_constant? hconstant
    exact hrange _ hl

/-- Lines that tokens are read as have their constants in range. -/
theorem inRange_of_says {size : Nat} {tls : List TokenLine} {contents : List (Option Statement)}
    (h : List.Forall₂ (TokenLine.Says size) tls contents) {s : Statement}
    (hs : .statement s ∈ contents.reduceOption.map Line.statement) : s.InRange := by
  obtain ⟨s', hs', heq⟩ := List.mem_map.mp hs
  obtain rfl := Line.statement.inj heq
  obtain ⟨i, hi, hget⟩ := List.mem_iff_getElem.mp (List.reduceOption_mem_iff.mp hs')
  obtain ⟨r, hr, hmap⟩ := h.get (h.length_eq ▸ hi) hi
  rw [List.get_eq_getElem, hget] at hmap
  obtain ⟨ls, rfl, rfl⟩ := Option.map_eq_some_iff.mp hmap
  exact inRange_of_read hr

/-- The tokens of a source are read as one program. -/
theorem tokensSay_unique {others : List Line} (h : TokensSay source lines)
    (h' : TokensSay source others) : lines = others := by
  obtain ⟨contents, hcontents, rfl⟩ := h
  obtain ⟨contents', hcontents', rfl⟩ := h'
  have hmeans : Relator.RightUnique (TokenLine.Says source.utf8ByteSize) := by
    rintro l s s' ⟨r, hr, rfl⟩ ⟨r', hr', rfl⟩
    rw [Except.ok.inj (hr.symm.trans hr')]
  rw [hmeans.forall₂ hcontents hcontents']

theorem inRange_of_tokensSay (h : TokensSay source lines) {s : Statement}
    (hs : .statement s ∈ lines) : s.InRange := by
  obtain ⟨contents, hcontents, rfl⟩ := h
  exact inRange_of_says hcontents hs

/-- The program of a source is that of its lines. -/
theorem Program.ofSource_iff {p : Program} :
    ofSource source = .ok p ↔ ∃ lines, TokensSay source lines ∧ addAll {} lines = some p := by
  unfold ofSource TokensSay
  rw [addLines_iff]
  constructor
  · rintro ⟨contents, hcontents, h⟩
    exact ⟨_, ⟨contents, hcontents, rfl⟩, h⟩
  · rintro ⟨_, ⟨contents, hcontents, rfl⟩, h⟩
    exact ⟨contents, hcontents, h⟩

/-- **What a source is assembled to**, by the lines that its tokens are read as. -/
theorem assemble_iff :
    assemble source = .ok words ↔
      ∃ lines, TokensSay source lines ∧ LabelsFit lines ∧
      words.toList = wordsOf (addressOf lines) lines := by
  rw [assemble_eq_ok_iff]
  constructor
  · rintro ⟨p, hp, rfl⟩
    obtain ⟨lines, hlines, hadd⟩ := Program.ofSource_iff.mp hp
    have hfit := (Program.exists_addAll_iff fun s => inRange_of_tokensSay hlines).mp ⟨p, hadd⟩
    exact ⟨lines, hlines, hfit, Program.resolve_of_addAll hadd⟩
  · rintro ⟨lines, hlines, hfit, hwords⟩
    obtain ⟨p, hadd⟩ := (Program.exists_addAll_iff fun s => inRange_of_tokensSay hlines).mpr hfit
    refine ⟨p, Program.ofSource_iff.mpr ⟨lines, hlines, hadd⟩, Array.toList_inj.mp ?_⟩
    rw [hwords, Program.resolve_of_addAll hadd]

/-! ### The lines of a source -/

/-- The lines of a program that the stretches of a source consist of. -/
def StretchesSay (source : String) (lines : List Line) : Prop :=
  ∃ contents : List (Option Statement),
    List.Forall₂ Stretch.Says (stretches (withoutFinalNul source.toList)) contents ∧
      lines = contents.reduceOption.map .statement

/-- The tokens are read as the stretches of the source. -/
theorem tokensSay_iff_stretchesSay : TokensSay source lines ↔ StretchesSay source lines := by
  have hsize : 0 + byteLength source.toList = source.utf8ByteSize := by
    rw [Nat.zero_add, byteLength_toList]
  have hscanned := scanned_tokenLines (tiling_tokens source) hsize
  have hstretch {st : Stretch} {l : TokenLine} {s : Option Statement}
      (h : ScannedAs source.utf8ByteSize st l) : l.Says source.utf8ByteSize s ↔ st.Says s := by
    refine ⟨?_, exists_read h⟩
    rintro ⟨r, hr, rfl⟩
    exact says_of_read h hr
  have hcontents (contents : List (Option Statement)) :
      List.Forall₂ (TokenLine.Says source.utf8ByteSize) (tokenLines (tokens source)) contents ↔
        List.Forall₂ Stretch.Says (stretches (withoutFinalNul source.toList)) contents := by
    generalize stretches (withoutFinalNul source.toList) = sts at hscanned
    generalize tokenLines (tokens source) = tls at hscanned
    induction hscanned generalizing contents with
    | nil => simp only [List.forall₂_nil_left_iff]
    | cons h _ ih => simp only [List.forall₂_cons_left_iff, hstretch h, ih]
  unfold TokensSay StretchesSay
  simp only [hcontents]

/-- Without NUL characters the stretches of a source are its lines. -/
theorem stretchesSay_iff_reads (hnul : '\x00' ∉ source.toList) :
    StretchesSay source lines ↔ Reads source lines := by
  have hlines : stretches source.toList = (physicalLines source.toList).map fun line =>
      ⟨uncommented line, false⟩ := by
    unfold stretches
    rw [List.map_eq_flatMap]
    refine List.flatMap_congr fun line hline => stretchesOf_of_notMem fun hmem => hnul ?_
    exact mem_of_mem_physicalLines hline (mem_of_mem_uncommented hmem)
  have hstretch (line : List Char) (s : Option Statement) :
      Stretch.Says ⟨uncommented line, false⟩ s ↔ LineSays (uncommented line) s :=
    ⟨fun h => h.1, fun h => ⟨h, fun htrue => absurd htrue Bool.false_ne_true⟩⟩
  unfold StretchesSay Reads
  rw [withoutFinalNul_of_notMem hnul, hlines]
  simp only [List.forall₂_map_left_iff, hstretch]

/-- Without NUL characters the tokens are read as the lines of the source. -/
theorem tokensSay_iff_reads (hnul : '\x00' ∉ source.toList) :
    TokensSay source lines ↔ Reads source lines :=
  tokensSay_iff_stretchesSay.trans (stretchesSay_iff_reads hnul)

/-- **The assembler is its reference.**  A source without NUL characters is assembled if and only if
each of its lines says something and the labels are distinct and not predefined; its words are then
those of its lines, in order, with each symbol at its address.  If the size of the source fits into
32 bits, reading it token by token comes to the same. -/
theorem assemble_iff_reads (hsize : source.utf8ByteSize < UInt32.size)
    (hnul : '\x00' ∉ source.toList) :
    assemble? source = some (assemble source) ∧
      (assemble source = .ok words ↔
        ∃ lines, Reads source lines ∧ LabelsFit lines ∧
          words.toList = wordsOf (addressOf lines) lines) := by
  refine ⟨assemble?_eq hsize, ?_⟩
  rw [assemble_iff]
  simp only [tokensSay_iff_reads hnul]

/-- A source with every kind of symbol, of line and of line ending. -/
def mixedSource : String :=
  "@i // first\r\n@END\rM = M+1;JMP\n( END )\n\n@SCREEN\n@j\n@ 0042\n@i"

theorem assemble_iff_reads_labels_and_variables :
    mixedSource.utf8ByteSize < UInt32.size ∧ '\x00' ∉ mixedSource.toList ∧
      assemble? mixedSource = some (.ok #[16, 3, 0xFDCF, 0x4000, 17, 42, 16]) := by
  have hsize : mixedSource.utf8ByteSize < UInt32.size := by decide
  have hnul : '\x00' ∉ mixedSource.toList := by decide
  have hlines : (physicalLines mixedSource.toList).map uncommented =
      ["@i ".toList, "@END".toList, "M = M+1;JMP".toList, "( END )".toList, [], "@SCREEN".toList,
        "@j".toList, "@ 0042".toList, "@i".toList] := by decide
  obtain ⟨hnarrow, hreads⟩ := assemble_iff_reads hsize hnul
  refine ⟨hsize, hnul, hnarrow.trans (congrArg some (hreads.mpr ⟨_,
    ⟨[some (.load (.symbol "i")), some (.load (.symbol "END")),
      some (.compute ⟨⟨false, false, true⟩, .mPlusOne, some .always⟩), some (.label "END"), none,
      some (.load (.symbol "SCREEN")), some (.load (.symbol "j")), some (.load (.constant 42)),
      some (.load (.symbol "i"))], ?_, rfl⟩, ⟨by decide, by decide⟩, by decide⟩))⟩
  have hnone : Blanks [] := nofun
  have hblank : Blanks [' '] := by decide
  have hi : IsSymbol "i" := ⟨'i', [], rfl, rfl, by decide⟩
  have hj : IsSymbol "j" := ⟨'j', [], rfl, rfl, by decide⟩
  have hend : IsSymbol "END" := ⟨'E', ['N', 'D'], rfl, rfl, by decide⟩
  have hscreen : IsSymbol "SCREEN" := ⟨'S', ['C', 'R', 'E', 'E', 'N'], rfl, rfl, by decide⟩
  have hnumber : IsNumber "0042".toList := by decide
  rw [← List.forall₂_map_left_iff, hlines]
  exact .cons (.symbol hnone hnone hblank hi) (.cons (.symbol hnone hnone hnone hend)
    (.cons (.compute rfl) (.cons (.label hnone hblank hblank hnone hend) (.cons (.nothing hnone)
    (.cons (.symbol hnone hnone hnone hscreen) (.cons (.symbol hnone hnone hnone hj)
    (.cons (.constant hnone hblank hnone hnumber (by decide))
    (.cons (.symbol hnone hnone hnone hi) .nil))))))))

/-! ### NUL characters -/

/-- **Every source.**  A NUL character outside a comment passes for the end of a line behind a
statement, and for the end of the source if it is the last character; anywhere else the source is
not assembled.  So a source is assembled if and only if each of its stretches says something and the
labels fit, where a stretch may be empty only if no NUL character ends it.  If the size of the
source fits into 32 bits, reading it token by token comes to the same. -/
theorem assemble_iff_stretches (hsize : source.utf8ByteSize < UInt32.size) :
    assemble? source = some (assemble source) ∧
      (assemble source = .ok words ↔
        ∃ lines, StretchesSay source lines ∧ LabelsFit lines ∧
          words.toList = wordsOf (addressOf lines) lines) := by
  refine ⟨assemble?_eq hsize, ?_⟩
  rw [assemble_iff]
  simp only [tokensSay_iff_stretchesSay]

/-- Two instructions with a NUL character between them. -/
theorem stretchesSay_nul : StretchesSay "@1\x00@2\n"
    [.statement (.load (.constant 1)), .statement (.load (.constant 2))] := by
  have hstretches : stretches (withoutFinalNul "@1\x00@2\n".toList) =
      [⟨"@1".toList, true⟩, ⟨"@2".toList, false⟩, ⟨[], false⟩] := by decide
  have hnone : Blanks [] := nofun
  have hone : LineSays ([] ++ '@' :: ([] ++ (['1'] ++ []))) (some (.load (.constant 1))) :=
    .constant hnone hnone hnone (by decide) (by decide)
  have htwo : LineSays ([] ++ '@' :: ([] ++ (['2'] ++ []))) (some (.load (.constant 2))) :=
    .constant hnone hnone hnone (by decide) (by decide)
  refine ⟨[some (.load (.constant 1)), some (.load (.constant 2)), none], ?_, rfl⟩
  rw [hstretches]
  exact .cons ⟨hone, fun _ => Option.some_ne_none _⟩
    (.cons ⟨htwo, nofun⟩ (.cons ⟨.nothing hnone, nofun⟩ .nil))

theorem assemble_iff_stretches_nul :
    "@1\x00@2\n".utf8ByteSize < UInt32.size ∧
      assemble? "@1\x00@2\n" = some (.ok #[1, 2]) := by
  have hsize : "@1\x00@2\n".utf8ByteSize < UInt32.size := by decide
  obtain ⟨hnarrow, hstretches⟩ := assemble_iff_stretches hsize
  exact ⟨hsize, hnarrow.trans (congrArg some
    (hstretches.mpr ⟨_, stretchesSay_nul, ⟨by decide, by decide⟩, by decide⟩))⟩

/-- Two instructions stand on one line with a NUL character between them. -/
theorem nul_passes_for_newline :
    (∃ line ∈ physicalLines "@1\x00@2\n".toList, '\x00' ∈ uncommented line) ∧
      assemble "@1\x00@2\n" = .ok #[1, 2] := by
  refine ⟨⟨"@1\x00@2".toList, by decide, by decide⟩, assemble_iff.mpr ⟨_,
    tokensSay_iff_stretchesSay.mpr stretchesSay_nul, ⟨by decide, by decide⟩, by decide⟩⟩

end JackToolchain.Hack
