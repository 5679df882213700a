import JackToolchain.Proofs.Cli.Units
import JackToolchain.Proofs.VM.Legality

/-!
# Programs from folders

To translate a folder makes one program of all of its units, or nothing.  The units go through one
translator, in name order, and the translator goes on behind a unit in error, with what has been
translated of it.  So what matters is that whether a unit is in error does not depend on the
translator: the errors that are counted are those of the units on their own (`Ends.translateFiles`),
and where there is one, in whatever place, nothing has been written yet and nothing is going to be
written (`translate_folder`).
-/

namespace JackToolchain.Cli

variable {t t' : FileTree} {p : Path} {d : Place} {n : Name} {limit : Option Log.Level}

/-! ### The name of a program -/

namespace Path

theorem noSlash_of_mem_split {bs piece : List UInt8} (h : piece ∈ split bs) : slash ∉ piece := by
  induction bs generalizing piece with
  | nil =>
    rw [List.mem_singleton.mp h]
    exact List.not_mem_nil
  | cons b bs ih =>
    rw [split] at h
    split at h
    · rcases List.mem_cons.mp h with rfl | h
      · exact List.not_mem_nil
      · exact ih h
    · next hb =>
      cases hsplit : split bs with
      | nil => exact absurd hsplit (split_ne_nil bs)
      | cons first pieces =>
        rw [hsplit] at h ih
        rcases List.mem_cons.mp h with rfl | h
        · rw [List.mem_cons, not_or]
          exact ⟨Ne.symm hb, ih List.mem_cons_self⟩
        · exact ih (List.mem_cons_of_mem first h)

theorem noSlash_of_name? {name : Name} (h : p.name? = some name) : slash ∉ name := by
  have hmem : name ∈ split p.bytes := by
    unfold name? at h
    split at h
    · next last hlast =>
      split at h
      · cases h
      · cases h
        exact (List.mem_filter.mp (List.mem_of_getLast? hlast)).1
    · cases h
  exact noSlash_of_mem_split hmem

theorem noSlash_unitName (p : Path) : '/' ∉ p.unitName.toList := by
  unfold unitName
  cases hname : p.name? with
  | none => exact List.not_mem_nil
  | some name =>
    have hslash := noSlash_of_name? hname
    refine Name.slash_notMem_text ?_
    unfold Name.stem
    split
    · next before behind hsplit =>
      unfold Name.split? at hsplit
      dsimp only at hsplit
      split at hsplit
      · cases hsplit
      · cases hsplit
        exact fun h => hslash (List.mem_of_mem_take h)
    · exact hslash

end Path

/-- The name of the program of a folder. -/
def programName (p : Path) : Name := .ofText (p.unitName ++ ".asm")

theorem programName_proper (p : Path) : (programName p).Proper := by
  have hslash : slash ∉ programName p := by
    refine Name.slash_notMem_ofText ?_
    rw [String.toList_append]
    exact List.not_mem_append p.noSlash_unitName (by decide)
  have hlast : (programName p).getLast? = some 0x6D := by
    have hname : programName p = .ofText p.unitName ++ .ofText ".asm" := Text.Utf8.encode_append _ _
    rw [hname, List.getLast?_append]
    rfl
  exact Name.proper_of_getLast? hslash hlast (by decide)

/-! ### Units and the translator -/

/-- The program that a unit makes on its own, if it can be translated. -/
def translated? (n : Name) (source : String) : Option String :=
  (VM.translate (n.stem.text) source {}).toOption

/-- What translating makes of a unit in a folder.  A unit that is no text stops everything. -/
def translating (t : FileTree) (p : Path) (d : Place) : Recipe := fun n =>
  (textResult t (d ++ [n]) (p.join n)).map fun source =>
    (translated? n source).map (·.toUTF8.data.toList)

/-- The units of a folder that are texts, with their names. -/
def FileTree.sourceUnits (t : FileTree) (d : Place) (ns : List Name) : List (String × String) :=
  ns.filterMap fun n => (t.text? (d ++ [n])).map (n.stem.text, ·)

/-- **A unit is in error for any translator** if it is on its own. -/
theorem translateUnit_cases (tr : VM.Translator) (n : Name) (source : String) :
    (∃ tr', tr.translateUnit (n.stem.text) source = (.ok (), tr') ∧
      (translated? n source).isNone = false) ∨
    ∃ e tr', tr.translateUnit (n.stem.text) source = (.error e, tr') ∧
      (translated? n source).isNone = true := by
  have hown : (∃ asm, VM.translate (n.stem.text) source {} = .ok asm) ↔
      (tr.translateUnit (n.stem.text) source).1 = .ok () :=
    VM.exists_translate_iff.trans (VM.Translator.translateUnit_ok_iff tr _ source).symm
  unfold translated?
  cases htranslate : tr.translateUnit (n.stem.text) source with
  | mk result tr' =>
    rw [htranslate] at hown
    cases result with
    | ok =>
      obtain ⟨asm, hasm⟩ := hown.mpr rfl
      exact .inl ⟨tr', rfl, by rw [hasm]; rfl⟩
    | error e =>
      refine .inr ⟨e, tr', rfl, ?_⟩
      cases hasm : VM.translate (n.stem.text) source {} with
      | error e' => rfl
      | ok asm => cases hown.mp ⟨asm, hasm⟩

theorem translating_of_text {source : String} (h : t.text? (d ++ [n]) = some source) :
    translating t p d n = .ok ((translated? n source).map (·.toUTF8.data.toList)) := by
  unfold translating textResult
  rw [h]
  rfl

theorem translating_of_notText (h : t.text? (d ++ [n]) = none) :
    translating t p d n = .error (.notText (p.join n)) := by
  unfold translating textResult
  rw [h]
  rfl

theorem Ends.needUnit (hs : Setting t p d) (hn : n ∈ t.fileNames d) :
    Ends (Cli.needText (p.join n)) t (textResult t (d ++ [n]) (p.join n)) t := by
  obtain ⟨bytes, hbytes⟩ := FileTree.exists_bytes_of_mem_fileNames hn
  exact Ends.needText
    (FileTree.resolve_join hs.resolve hs.isFolder (hs.sound.proper_of_mem_fileNames hn)) hbytes

/-- **A unit goes through a translator**, and the others behind it.  It is counted if it is in error
on its own. -/
theorem Ends.translateFiles_cons {source : String} {files : List Path} {tr : VM.Translator}
    {failures : Nat} {result : Except Abort (VM.Translator × Nat)} (hs : Setting t p d)
    (hn : n ∈ t.fileNames d) (hsource : t.text? (d ++ [n]) = some source)
    (hrest : Ends (Cli.translateFiles limit (tr.translateUnit (n.stem.text) source).2
      (failures + if (translated? n source).isNone then 1 else 0) files) t result t') :
    Ends (Cli.translateFiles limit tr failures (p.join n :: files)) t result t' := by
  have hname : (p.join n).unitName = n.stem.text :=
    Path.unitName_join (FileTree.bytes_ne_nil_of_resolve hs.resolve)
      (hs.sound.proper_of_mem_fileNames hn)
  have hneed := Ends.needUnit hs hn
  unfold textResult at hneed
  rw [hsource] at hneed
  rw [Cli.translateFiles, hname]
  refine (Ends.report _ t).bind (hneed.bind ((Ends.report _ t).bind ?_))
  rcases translateUnit_cases tr n source with ⟨tr', htranslate, hproduct⟩
    | ⟨e, tr', htranslate, hproduct⟩
  · rw [htranslate, hproduct] at hrest
    rw [htranslate]
    exact hrest
  · rw [htranslate, hproduct] at hrest
    rw [htranslate]
    exact (Ends.report _ t).bind hrest

/-- **Units go through a translator** one after the other.  Those that are counted are in error on
their own. -/
theorem Ends.translateFiles (limit : Option Log.Level) {ns : List Name} (hs : Setting t p d)
    (hns : ∀ n ∈ ns, n ∈ t.fileNames d) (tr : VM.Translator) (failures : Nat) :
    Ends (Cli.translateFiles limit tr failures (ns.map p.join)) t
      ((tally (translating t p d) ns).map fun count =>
        ((t.sourceUnits d ns).foldl (fun tr u => (tr.translateUnit u.1 u.2).2) tr,
          failures + count)) t := by
  induction ns generalizing tr failures with
  | nil => exact .pure _ t
  | cons n ns ih =>
    obtain ⟨hn, hns⟩ := List.forall_mem_cons.mp hns
    rw [List.map_cons, tally, FileTree.sourceUnits, List.filterMap_cons]
    cases hsource : t.text? (d ++ [n]) with
    | none =>
      have hneed := Ends.needUnit hs hn
      unfold textResult at hneed
      rw [hsource] at hneed
      rw [Cli.translateFiles, translating_of_notText hsource]
      exact (Ends.report _ t).bind hneed.bind_error
    | some source =>
      have hrest := ih hns (tr.translateUnit (n.stem.text) source).2
        (failures + if (translated? n source).isNone then 1 else 0)
      rw [translating_of_text hsource]
      refine Ends.translateFiles_cons hs hn hsource ?_
      cases htally : tally (translating t p d) ns with
      | error cause => rwa [htally] at hrest
      | ok count =>
        rw [htally] at hrest
        simp only [Except.map, Option.isNone_map, Option.map_some, List.foldl_cons, ← Nat.add_assoc]
        exact hrest

/-! ### Programs -/

/-- The program of a folder. -/
def folderProgram (t : FileTree) (d : Place) : String :=
  (VM.Translator.ofUnits { bootstrap := true } (t.sourceUnits d (t.units d "vm"))).finish

/-- What is written for a folder, if none of its units is in error. -/
def programProduct? (t : FileTree) (p : Path) (d : Place) : Option (List UInt8) :=
  match tally (translating t p d) (t.units d "vm") with
  | .ok 0 => some (folderProgram t d).toUTF8.data.toList
  | .ok (_ + 1) | .error _ => none

theorem Ends.translate (hs : Setting t p d) (hout : t.isFolder (d ++ [programName p]) = false) :
    Ends (translate limit {} p) t (tally (translating t p d) (t.units d "vm"))
      (t.deliver (d ++ [programName p]) (programProduct? t p d)) := by
  have hnames : ∀ n ∈ t.units d "vm", n ∈ t.fileNames d := fun n hn => (FileTree.mem_units.mp hn).1
  have hfiles := Ends.translateFiles limit hs hnames (.new { bootstrap := true }) 0
  have hpath : t.resolve (translatedPath p true) = some (d ++ [programName p]) :=
    FileTree.resolve_join hs.resolve hs.isFolder (programName_proper p)
  unfold Cli.translate programProduct?
  refine (Ends.lift (Leads.isFolder hs.resolve)).bind ?_
  rw [hs.isFolder]
  refine (Ends.sources hs.resolve hs.isFolder hs.not_isFile "vm").bind ?_
  cases htally : tally (translating t p d) (t.units d "vm") with
  | error cause =>
    rw [htally] at hfiles
    exact hfiles.bind_error
  | ok count =>
    rw [htally] at hfiles
    simp only [Nat.zero_add] at hfiles
    refine hfiles.bind ?_
    cases count with
    | zero => exact (Ends.writeText hpath hout _).bind ((Ends.report _ _).bind (.pure 0 _))
    | succ count => exact .pure (count + 1) t

theorem product?_translating : product? (translating t p d) n =
    ((t.text? (d ++ [n])).bind (translated? n)).map (·.toUTF8.data.toList) := by
  unfold product? translating textResult
  cases t.text? (d ++ [n]) <;> rfl

/-- No unit is in error if each of them is a text that can be translated. -/
theorem tally_translating_eq_zero_iff {ns : List Name} :
    tally (translating t p d) ns = .ok 0 ↔ ∀ n ∈ ns,
      ((t.text? (d ++ [n])).bind (translated? n)).isSome = true := by
  have hproduct : (∀ n ∈ ns, (product? (translating t p d) n).isSome = true) ↔
      ∀ n ∈ ns, ((t.text? (d ++ [n])).bind (translated? n)).isSome = true := by
    simp only [product?_translating, Option.isSome_map]
  rw [← hproduct]
  by_cases hall : ∀ n ∈ ns, (translating t p d n).toBool = true
  · rw [tally_of_forall hall]
    simp [List.countP_eq_zero, Option.isSome_iff_ne_none]
  · obtain ⟨cause, hcause⟩ := exists_tally_eq_error hall
    rw [hcause]
    refine iff_of_false (fun h => nomatch h) fun h => hall fun n hn => ?_
    have hn := h n hn
    unfold product? at hn
    cases hmake : translating t p d n with
    | error cause =>
      rw [hmake] at hn
      cases hn
    | ok product => rfl

theorem exitCode_ofTally_eq_zero_iff {result : Except Abort Nat} :
    (Outcome.ofTally result).exitCode = 0 ↔ result = .ok 0 := by
  match result with
  | .error cause => simp [Outcome.ofTally, Outcome.exitCode]
  | .ok 0 => simp [Outcome.ofTally, Outcome.exitCode]
  | .ok (count + 1) => simp [Outcome.ofTally, Outcome.exitCode]

/-- **A folder is translated as a whole or not at all.**  If each of its units is a text that can be
translated, the program of all units is written and nothing else; and if there is a unit that is
not, nothing is written. -/
theorem translate_folder {words : List String} (hs : Setting t p d)
    (hwords : Request.ofWords? words = some ⟨.translate, p⟩)
    (hout : t.isFolder (d ++ [programName p]) = false) :
    ∃ outcome t', (∀ limit, Leads (run limit words) t outcome t') ∧
      ((∀ n ∈ t.units d "vm", ((t.text? (d ++ [n])).bind (translated? n)).isSome = true) ∧
          outcome.exitCode = 0 ∧ t.SameFolders t' ∧
          t'.read? (d ++ [programName p]) = some (folderProgram t d).toUTF8.data.toList ∧
          (∀ place, place ≠ d ++ [programName p] → t'.read? place = t.read? place) ∨
        (∃ n ∈ t.units d "vm", (t.text? (d ++ [n])).bind (translated? n) = none) ∧
          outcome.exitCode ≠ 0 ∧ t' = t) := by
  have hperform (limit : Option Log.Level) : Ends (perform limit ⟨.translate, p⟩) t
      (tally (translating t p d) (t.units d "vm"))
      (t.deliver (d ++ [programName p]) (programProduct? t p d)) :=
    (Ends.readConfiguration t.resolve_configuration hs.unconfigured).bind (Ends.translate hs hout)
  refine ⟨_, _, fun limit => Leads.run_of_perform hwords hs.resolve hs.isFolder (hperform limit),
    ?_⟩
  rw [ne_eq, exitCode_ofTally_eq_zero_iff]
  by_cases hzero : tally (translating t p d) (t.units d "vm") = .ok 0
  · have hproduct : programProduct? t p d = some (folderProgram t d).toUTF8.data.toList := by
      unfold programProduct?
      rw [hzero]
    refine .inl ⟨tally_translating_eq_zero_iff.mp hzero, hzero,
      FileTree.sameFolders_deliver hs.isFolder _ _, ?_,
      fun place hplace => FileTree.read?_deliver_of_ne hplace _⟩
    rw [FileTree.read?_deliver_self, hproduct]
    rfl
  · have hproduct : programProduct? t p d = none := by
      unfold programProduct?
      split
      · next h => exact absurd h hzero
      · rfl
      · rfl
    refine .inr ⟨?_, hzero, by rw [hproduct]; rfl⟩
    have hbad := mt tally_translating_eq_zero_iff.mpr hzero
    simp only [not_forall] at hbad
    obtain ⟨n, hn, hnone⟩ := hbad
    exact ⟨n, hn, by simpa using hnone⟩

/-- A folder with an old program and a unit between two that can be translated. -/
def vmFolder (source : String) : FileTree where
  files := [([Name.ofText "d", Name.ofText "A.vm"], "push constant 1\n".toUTF8.data.toList),
    ([Name.ofText "d", Name.ofText "B.vm"], source.toUTF8.data.toList),
    ([Name.ofText "d", Name.ofText "C.vm"], "goto C\n".toUTF8.data.toList),
    ([Name.ofText "d", Name.ofText "d.asm"], [1])]

theorem units_vmFolder (source : String) : (vmFolder source).units [Name.ofText "d"] "vm" =
    [Name.ofText "A.vm", Name.ofText "B.vm", Name.ofText "C.vm"] :=
  FileTree.units_of_pairwise rfl (by decide)

theorem programName_vmFolder : programName (.ofText "d") = Name.ofText "d.asm" := by
  decide +kernel

theorem isFolder_vmFolder (source : String) :
    (vmFolder source).isFolder ([Name.ofText "d"] ++ [programName (.ofText "d")]) = false := by
  rw [programName_vmFolder]
  rfl

/-- If the unit pops into a constant, the old program stays as it is. -/
theorem translate_folder_between :
    (∃ outcome t', (∀ limit, Leads (run limit ["translate", "d"]) (vmFolder "add\n") outcome t') ∧
      outcome.exitCode = 0 ∧ t'.read? [Name.ofText "d", Name.ofText "d.asm"] =
        some (folderProgram (vmFolder "add\n") [Name.ofText "d"]).toUTF8.data.toList) ∧
    ∃ outcome t',
      (∀ limit,
        Leads (run limit ["translate", "d"]) (vmFolder "add\npop constant 0\n") outcome t') ∧
      outcome.exitCode ≠ 0 ∧ t'.read? [Name.ofText "d", Name.ofText "d.asm"] = some [1] := by
  have hwords : Request.ofWords? ["translate", "d"] = some ⟨.translate, .ofText "d"⟩ := by decide
  constructor
  · obtain ⟨outcome, t', hrun, ⟨-, hexit, -, hprogram, -⟩ | ⟨⟨n, hn, hbad⟩, -⟩⟩ :=
      translate_folder (t := vmFolder "add\n") (d := [Name.ofText "d"]) (by decide) hwords
        (isFolder_vmFolder _)
    · rw [programName_vmFolder] at hprogram
      exact ⟨outcome, t', hrun, hexit, hprogram⟩
    · have hgood : ∀ n ∈ [Name.ofText "A.vm", Name.ofText "B.vm", Name.ofText "C.vm"],
          ((vmFolder "add\n").text? ([Name.ofText "d"] ++ [n])).bind (translated? n) ≠ none := by
        decide +kernel
      rw [units_vmFolder] at hn
      exact absurd hbad (hgood n hn)
  · obtain ⟨outcome, t', hrun, ⟨hall, -⟩ | ⟨-, hexit, rfl⟩⟩ :=
      translate_folder (t := vmFolder "add\npop constant 0\n") (d := [Name.ofText "d"])
        (by decide) hwords (isFolder_vmFolder _)
    · rw [units_vmFolder] at hall
      exact absurd (hall (Name.ofText "B.vm") (by decide)) (by decide +kernel)
    · exact ⟨outcome, _, hrun, hexit, by decide⟩

end JackToolchain.Cli
