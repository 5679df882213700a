import JackToolchain.Proofs.Cli.Units

/-!
# Folders of units

Compiling a folder isolates its units: the output for a unit depends on nothing but the text of the
unit, and a unit in error leaves the file as it was where its output would go (`compile_folder`).
Assembling a folder does the same only as far as the units are texts, in name order; the first one
that is none stops the command (`assemble_folder`, `not_assembled_behind_bytes`).
-/

namespace JackToolchain.Cli

variable {t t' : FileTree} {p : Path} {d : Place} {n : Name} {bytes : List UInt8}
  {limit : Option Log.Level}

/-! ### Compiling -/

/-- The bytes that a source is compiled to, if it compiles. -/
def compiled? (mode : Jack.OutputMode) (source : String) : Option (List UInt8) :=
  (Jack.compile mode source).toOption.map (·.toUTF8.data.toList)

/-- The name of the output for a unit.  A listing of tokens is named after the text of the unit's
name. -/
def outputName (mode : Jack.OutputMode) (n : Name) : Name :=
  match mode with
  | .vm => n.withExtension "vm"
  | .tree => n.withExtension "xml"
  | .tokens => .ofText (n.stem.text ++ "T.xml")

/-- The last byte of an output's name. -/
theorem getLast?_outputName (mode : Jack.OutputMode) (n : Name) :
    (outputName mode n).getLast? = some 0x6C ∨ (outputName mode n).getLast? = some 0x6D := by
  cases mode with
  | vm => exact .inr (Name.getLast?_withExtension n (by decide))
  | tree => exact .inl (Name.getLast?_withExtension n (by decide))
  | tokens =>
    have hname : outputName .tokens n = .ofText n.stem.text ++ .ofText "T.xml" :=
      Text.Utf8.encode_append _ _
    rw [hname, List.getLast?_append]
    exact .inl rfl

theorem outputName_proper (mode : Jack.OutputMode) (hn : n.Proper) {extension : Name}
    (h : n.extension? = some extension) : (outputName mode n).Proper := by
  have hslash : slash ∉ outputName mode n := by
    cases mode with
    | vm | tree => exact Name.noSlash_withExtension hn h (by decide)
    | tokens =>
      refine Name.slash_notMem_ofText ?_
      rw [String.toList_append]
      exact List.not_mem_append (Name.slash_notMem_text (Name.noSlash_stem hn h)) (by decide)
  rcases getLast?_outputName mode n with hlast | hlast
  · exact Name.proper_of_getLast? hslash hlast (by decide)
  · exact Name.proper_of_getLast? hslash hlast (by decide)

/-- No output has the name of a source. -/
theorem outputName_ne (mode : Jack.OutputMode) {n' : Name}
    (h : n'.extension? = some (.ofText "jack")) : outputName mode n ≠ n' := by
  rcases getLast?_outputName mode n with hlast | hlast
  · exact Name.ne_of_getLast? h hlast (by decide)
  · exact Name.ne_of_getLast? h hlast (by decide)

/-- **Units share an output only as listings of tokens**, and only if the name of one of them is no
text. -/
theorem eq_of_outputName_eq {mode : Jack.OutputMode} {n' extension : Name}
    (h : n.extension? = some extension) (h' : n'.extension? = some extension)
    (heq : outputName mode n = outputName mode n') :
    n = n' ∨ mode = .tokens ∧ ¬(n.IsText ∧ n'.IsText) := by
  cases mode with
  | vm | tree => exact .inl (Name.withExtension_inj h h' heq)
  | tokens =>
    by_cases htext : n.IsText ∧ n'.IsText
    · have hstems : n.stem.text = n'.stem.text := by
        have hlistings := congrArg String.toList (Text.Utf8.encode_injective heq)
        rw [String.toList_append, String.toList_append] at hlistings
        exact String.toList_inj.mp (List.append_cancel_right hlistings)
      exact .inl (Name.eq_of_stem_eq h h' ((htext.1.stem h).text_inj (htext.2.stem h') hstems))
    · exact .inr ⟨rfl, htext⟩

/-- Outputs stand beside their sources. -/
theorem resolve_compiledPath (hp : t.resolve p = some d) (hd : t.isFolder d = true) (hn : n.Proper)
    {extension : Name} (h : n.extension? = some extension) (mode : Jack.OutputMode) :
    t.resolve (compiledPath mode (p.join n)) = some (d ++ [outputName mode n]) := by
  have hbytes := FileTree.bytes_ne_nil_of_resolve hp
  have hproper := outputName_proper mode hn h
  cases mode with
  | vm | tree =>
    show t.resolve ((p.join n).withExtension _) = _
    rw [Path.withExtension_join hbytes hn.noSlash]
    exact FileTree.resolve_join hp hd hproper
  | tokens =>
    show t.resolve ((p.join n).withName (.ofText ((p.join n).unitName ++ _))) = _
    rw [Path.unitName_join hbytes hn]
    exact FileTree.resolve_withName_join hp hd hn.noSlash hproper

theorem Ends.compileFile (limit : Option Log.Level) (mode : Jack.OutputMode) {file : Path}
    {place target : Place} (hfile : t.resolve file = some place)
    (hbytes : t.read? place = some bytes) (hout : t.resolve (compiledPath mode file) = some target)
    (htarget : t.isFolder target = false) : Ends (compileFile limit mode file) t
      (.ok ((t.text? place).bind (compiled? mode)).isNone)
        (t.deliver target ((t.text? place).bind (compiled? mode))) := by
  have hread := Ends.readText hfile hbytes
  unfold Cli.compileFile
  refine (Ends.report _ t).bind (hread.bind ?_)
  unfold textResult
  cases t.text? place with
  | none => exact (Ends.report _ t).bind (.pure true t)
  | some source =>
    refine (Ends.reportAll _ t).bind ?_
    have hcompile : (Jack.compileWithRecords mode source).output = Jack.compile mode source := rfl
    rw [Option.bind_some, compiled?, hcompile]
    cases Jack.compile mode source with
    | error e => exact (Ends.report _ t).bind (.pure true t)
    | ok output =>
      exact (Ends.writeText hout htarget output).bind ((Ends.report _ _).bind (.pure false _))

/-- What a unit in a folder is compiled to, if it is a text and compiles. -/
def compiledUnit? (t : FileTree) (d : Place) (mode : Jack.OutputMode) (n : Name) :
    Option (List UInt8) :=
  (t.text? (d ++ [n])).bind (compiled? mode)

/-- What compiling makes of a unit in a folder. -/
def compiling (t : FileTree) (d : Place) (mode : Jack.OutputMode) : Recipe := fun n =>
  .ok (compiledUnit? t d mode n)

theorem handles_compileFile (hs : Setting t p d) {mode : Jack.OutputMode}
    (hn : n ∈ t.units d "jack") (hout : t.isFolder (d ++ [outputName mode n]) = false) :
    Handles (compileFile limit mode) t p d (outputName mode) (compiling t d mode) n := by
  obtain ⟨hname, hextension⟩ := FileTree.mem_units.mp hn
  have hproper := hs.sound.proper_of_mem_fileNames hname
  obtain ⟨bytes, hbytes⟩ := FileTree.exists_bytes_of_mem_fileNames hname
  intro t' hfolders hunit
  have hresolve : t'.resolve p = some d := (hfolders.resolve p).trans hs.resolve
  have hfolder : t'.isFolder d = true := (hfolders.isFolder d).trans hs.isFolder
  have hcompile := Ends.compileFile limit mode (FileTree.resolve_join hresolve hfolder hproper)
    (hunit.trans hbytes) (resolve_compiledPath hresolve hfolder hproper hextension mode)
    ((hfolders.isFolder _).trans hout)
  unfold product? compiling compiledUnit?
  rwa [FileTree.text?_congr hunit] at hcompile

/-- A folder with a unit that is no text and has an old output, and a unit that compiles and whose
name is no text. -/
def jackFolder : FileTree where
  files := [([Name.ofText "d", Name.ofText "Bad.jack"], [255]),
    ([Name.ofText "d", Name.ofText "Bad.vm"], [1]),
    ([Name.ofText "d", Name.ofText "Caf" ++ 0xE9 :: Name.ofText ".jack"],
      "class Good \x7b function int one() \x7b return 1; \x7d \x7d".toUTF8.data.toList)]

theorem units_jackFolder :
    jackFolder.units [Name.ofText "d"] "jack" =
      [Name.ofText "Bad.jack", Name.ofText "Caf" ++ 0xE9 :: Name.ofText ".jack"] :=
  FileTree.units_of_pairwise (by decide) (by decide)

/-- Two names that are no texts, and their one listing of tokens. -/
example : outputName .tokens (Name.ofText "Caf" ++ 0xE8 :: Name.ofText ".jack") =
    outputName .tokens (Name.ofText "Caf" ++ 0xE9 :: Name.ofText ".jack") := by
  decide +kernel

/-! ### Assembling -/

/-- The bytes that a source is assembled to, if it can be assembled. -/
def assembled? (source : String) : Option (List UInt8) :=
  (Hack.assemble source).toOption.map fun words => (Hack.romText words).toUTF8.data.toList

/-- The name of the ROM file for a unit. -/
def romName (n : Name) : Name := n.withExtension "hack"

/-- No ROM file has the name of a source. -/
theorem romName_ne {n' : Name} (h : n'.extension? = some (.ofText "asm")) : romName n ≠ n' :=
  Name.ne_of_getLast? (b := 0x6B) h (Name.getLast?_withExtension n (by decide)) (by decide)

/-- What assembling makes of a unit in a folder.  A unit that is no text stops everything. -/
def assembling (t : FileTree) (p : Path) (d : Place) : Recipe := fun n =>
  (textResult t (d ++ [n]) (p.join n)).map assembled?

theorem Ends.assembleFile (limit : Option Log.Level) {file : Path} {place target : Place}
    (hfile : t.resolve file = some place) (hbytes : t.read? place = some bytes)
    (hout : t.resolve (file.withExtension "hack") = some target)
    (htarget : t.isFolder target = false) : Ends (assembleFile limit file) t
      ((textResult t place file).map fun source => (assembled? source).isNone)
      (t.deliver target ((t.text? place).bind assembled?)) := by
  have hneed := Ends.needText hfile hbytes
  unfold Cli.assembleFile
  refine (Ends.report _ t).bind ?_
  unfold textResult at hneed ⊢
  cases hsource : t.text? place with
  | none =>
    rw [hsource] at hneed
    exact hneed.bind_error
  | some source =>
    rw [hsource] at hneed
    refine hneed.bind ((Ends.reportAll _ t).bind ?_)
    have hassemble : (Hack.assembleWithRecords source).words = Hack.assemble source := rfl
    show Ends _ t (.ok (assembled? source).isNone) (t.deliver target (assembled? source))
    rw [assembled?, hassemble]
    cases Hack.assemble source with
    | error e => exact (Ends.report _ t).bind (.pure true t)
    | ok words =>
      exact (Ends.writeText hout htarget _).bind ((Ends.report _ _).bind (.pure false _))

theorem product?_assembling :
    product? (assembling t p d) n = (t.text? (d ++ [n])).bind assembled? := by
  unfold product? assembling textResult
  cases t.text? (d ++ [n]) <;> rfl

theorem toBool_assembling : (assembling t p d n).toBool = (t.text? (d ++ [n])).isSome := by
  unfold assembling textResult
  cases t.text? (d ++ [n]) <;> rfl

theorem handles_assembleFile (hs : Setting t p d) (hn : n ∈ t.units d "asm")
    (hout : t.isFolder (d ++ [romName n]) = false) :
    Handles (assembleFile limit) t p d romName (assembling t p d) n := by
  obtain ⟨hname, hextension⟩ := FileTree.mem_units.mp hn
  have hproper := hs.sound.proper_of_mem_fileNames hname
  have hrom : (romName n).Proper :=
    Name.proper_withExtension (b := 0x6B) hproper hextension (by decide) (by decide) (by decide)
  obtain ⟨bytes, hbytes⟩ := FileTree.exists_bytes_of_mem_fileNames hname
  intro t' hfolders hunit
  have hresolve : t'.resolve p = some d := (hfolders.resolve p).trans hs.resolve
  have hfolder : t'.isFolder d = true := (hfolders.isFolder d).trans hs.isFolder
  have htarget : t'.resolve ((p.join n).withExtension "hack") = some (d ++ [romName n]) := by
    rw [Path.withExtension_join (FileTree.bytes_ne_nil_of_resolve hresolve) hproper.noSlash]
    exact FileTree.resolve_join hresolve hfolder hrom
  have hassemble := Ends.assembleFile limit (FileTree.resolve_join hresolve hfolder hproper)
    (hunit.trans hbytes) htarget ((hfolders.isFolder _).trans hout)
  rw [product?_assembling]
  have hresult : (textResult t' (d ++ [n]) (p.join n)).map
      (fun source => (assembled? source).isNone) = (assembling t p d n).map Option.isNone := by
    unfold assembling textResult
    rw [FileTree.text?_congr hunit]
    cases t.text? (d ++ [n]) <;> rfl
  rwa [hresult, FileTree.text?_congr hunit] at hassemble

theorem exists_run_assemble {words : List String} (hs : Setting t p d)
    (hwords : Request.ofWords? words = some ⟨.assemble, p⟩)
    (hout : ∀ n ∈ t.units d "asm", t.isFolder (d ++ [romName n]) = false) :
    ∃ t',
      (∀ limit,
        Leads (run limit words) t (.ofTally (tally (assembling t p d) (t.units d "asm"))) t') ∧
      t.SameFolders t' ∧
      (∀ n ∈ reached (assembling t p d) (t.units d "asm"),
        t'.read? (d ++ [romName n]) =
          (product? (assembling t p d) n).or (t.read? (d ++ [romName n]))) ∧
      ∀ place, (∀ n ∈ reached (assembling t p d) (t.units d "asm"), place ≠ d ++ [romName n]) →
        t'.read? place = t.read? place := by
  have hextension : ∀ n ∈ reached (assembling t p d) (t.units d "asm"),
      n.extension? = some (.ofText "asm") :=
    fun n hn => (FileTree.mem_units.mp (List.takeWhile_subset _ hn)).2
  refine ⟨_, fun limit => Leads.run_units hs hwords rfl rfl
    (fun n hn => handles_assembleFile hs hn (hout n hn))
    fun _ _ _ hn' => romName_ne (FileTree.mem_units.mp hn').2,
    FileTree.sameFolders_deliverAll hs.isFolder _ _ _, fun n hn => ?_,
    fun _ => FileTree.read?_deliverAll_of_ne⟩
  -- ROM files are not shared.
  exact FileTree.read?_deliverAll_of_unique hn fun n' hn' heq =>
    Name.withExtension_inj (hextension n' hn') (hextension n hn) heq

/-- **Assembling a folder isolates its units, as far as they are texts.**  The first unit that is no
text stops the command; the units in front of it are treated on their own, and the units behind it
are not treated at all. -/
theorem assemble_folder {words : List String} (hs : Setting t p d)
    (hwords : Request.ofWords? words = some ⟨.assemble, p⟩)
    (hout : ∀ n ∈ t.units d "asm", t.isFolder (d ++ [romName n]) = false) :
    ∃ outcome t', (∀ limit, Leads (run limit words) t outcome t') ∧ t.SameFolders t' ∧
      (∀ n ∈ (t.units d "asm").takeWhile fun n => (t.text? (d ++ [n])).isSome,
        t'.read? (d ++ [romName n]) =
          ((t.text? (d ++ [n])).bind assembled?).or (t.read? (d ++ [romName n]))) ∧
      (∀ place, (∀ n ∈ (t.units d "asm").takeWhile fun n => (t.text? (d ++ [n])).isSome,
        place ≠ d ++ [romName n]) → t'.read? place = t.read? place) ∧
      outcome.exitCode =
        if ∀ n ∈ t.units d "asm", (t.text? (d ++ [n])).isSome = true then
          if ∀ n ∈ t.units d "asm", ((t.text? (d ++ [n])).bind assembled?).isSome = true then 0
          else 65
        else 1 := by
  have hexit := exitCode_ofTally (assembling t p d) (t.units d "asm")
  obtain ⟨t', hrun, hfolders, hmade, hother⟩ := exists_run_assemble hs hwords hout
  simp only [reached, toBool_assembling, product?_assembling] at hmade hother hexit
  exact ⟨_, t', hrun, hfolders, hmade, hother, hexit⟩

/-- A folder with a unit that is no text between two that can be assembled. -/
def asmFolder : FileTree where
  files := [([Name.ofText "d", Name.ofText "A.asm"], "@1\n".toUTF8.data.toList),
    ([Name.ofText "d", Name.ofText "B.asm"], [255]),
    ([Name.ofText "d", Name.ofText "C.asm"], "@2\n".toUTF8.data.toList)]

theorem units_asmFolder : asmFolder.units [Name.ofText "d"] "asm" =
    [Name.ofText "A.asm", Name.ofText "B.asm", Name.ofText "C.asm"] :=
  FileTree.units_of_pairwise (by decide) (by decide)

theorem setting_asmFolder : Setting asmFolder (.ofText "d") [Name.ofText "d"] := by decide

theorem words_asmFolder : Request.ofWords? ["asm", "d"] = some ⟨.assemble, .ofText "d"⟩ := by decide

theorem roms_asmFolder : ∀ n ∈ asmFolder.units [Name.ofText "d"] "asm",
    asmFolder.isFolder ([Name.ofText "d"] ++ [romName n]) = false := by
  rw [units_asmFolder]
  decide

theorem assemble_folder_good :
    ∃ outcome t', (∀ limit, Leads (run limit ["asm", "d"]) asmFolder outcome t') ∧
    outcome.exitCode = 1 ∧
      t'.read? [Name.ofText "d", Name.ofText "A.hack"] =
        some "0000000000000001\n".toUTF8.data.toList := by
  obtain ⟨outcome, t', hrun, -, hmade, -, hexit⟩ :=
    assemble_folder setting_asmFolder words_asmFolder roms_asmFolder
  rw [units_asmFolder] at hmade hexit
  exact ⟨outcome, t', hrun, hexit.trans (by decide +kernel),
    (hmade (Name.ofText "A.asm") (by decide +kernel)).trans (by decide +kernel)⟩

/-- A unit that can be assembled is not, if one in front of it is no text. -/
theorem not_assembled_behind_bytes :
    Name.ofText "C.asm" ∈ asmFolder.units [Name.ofText "d"] "asm" ∧
      (asmFolder.text? [Name.ofText "d", Name.ofText "C.asm"]).bind assembled? =
        some "0000000000000010\n".toUTF8.data.toList ∧
      ∃ outcome t', (∀ limit, Leads (run limit ["asm", "d"]) asmFolder outcome t') ∧
        t'.read? [Name.ofText "d", Name.ofText "C.hack"] = none ∧ outcome.exitCode = 1 := by
  obtain ⟨t', hrun, -, -, hother⟩ :=
    exists_run_assemble setting_asmFolder words_asmFolder roms_asmFolder
  rw [units_asmFolder] at *
  exact ⟨by decide +kernel, by decide +kernel, _, t', hrun,
    (hother _ (by decide +kernel)).trans (by decide +kernel), by decide +kernel⟩

end JackToolchain.Cli
