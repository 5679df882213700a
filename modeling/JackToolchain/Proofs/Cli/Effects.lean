import JackToolchain.Cli.Run
import JackToolchain.Proofs.Cli.Deliveries

/-!
# What actions do to a file tree

An action of the command line answers and leaves a file tree behind, whatever has been shown before
it (`Leads`); what it shows itself is not looked at.  An action that may stop answers with its
result or with the cause (`Ends`).  There is one lemma for each operation of the host and one for
each action that is made of them.
-/

namespace JackToolchain.Cli

variable {α β : Type} {t t' t'' : FileTree} {p file : Path} {d place : Place}
  {limit : Option Log.Level}

/-- An action answers `r` on a file tree and leaves another one behind. -/
def Leads (a : StateM Session α) (t : FileTree) (r : α) (t' : FileTree) : Prop :=
  ∀ shown, ∃ shown', a.run ⟨t, shown⟩ = (r, ⟨t', shown'⟩)

/-- An action that may stop ends with `r` on a file tree and leaves another one behind. -/
def Ends (a : Action (StateM Session) α) (t : FileTree) (r : Except Abort α) (t' : FileTree) :
    Prop :=
  Leads a.run t r t'

/-! ### Rules -/

namespace Leads

theorem pure (r : α) (t : FileTree) : Leads (Pure.pure r) t r t := fun shown => ⟨shown, rfl⟩

/-- **Actions in a row.** -/
theorem bind {a : StateM Session α} {f : α → StateM Session β} {r : α} {r' : β} (h : Leads a t r t')
    (hf : Leads (f r) t' r' t'') : Leads (a >>= f) t r' t'' := by
  intro shown
  obtain ⟨shown', ha⟩ := h shown
  obtain ⟨shown'', hr⟩ := hf shown'
  refine ⟨shown'', ?_⟩
  rw [StateT.run_bind, ha]
  exact hr

theorem print (text : String) (t : FileTree) : Leads (Host.print text) t () t :=
  fun shown => ⟨text :: shown, rfl⟩

theorem report (r : Log.Record) (t : FileTree) : Leads (report limit r) t () t := by
  unfold Cli.report
  split
  · exact .print _ t
  · exact .pure () t

end Leads

namespace Ends

variable {a : Action (StateM Session) α} {f : α → Action (StateM Session) β}

theorem pure (r : α) (t : FileTree) : Ends (Pure.pure r) t (.ok r) t := Leads.pure _ t

/-- **Actions in a row**, when the first one does not stop. -/
theorem bind {r : α} {r' : Except Abort β} (h : Ends a t (.ok r) t') (hf : Ends (f r) t' r' t'') :
    Ends (a >>= f) t r' t'' := by
  unfold Ends
  rw [ExceptT.run_bind]
  exact Leads.bind h hf

/-- Nothing is done behind an action that stops. -/
theorem bind_error {e : Abort} (h : Ends a t (.error e) t') : Ends (a >>= f) t (.error e) t' := by
  unfold Ends
  rw [ExceptT.run_bind]
  exact Leads.bind h (Leads.pure _ t')

theorem lift {a : StateM Session α} {r : α} (h : Leads a t r t') :
    Ends (ExceptT.lift a) t (.ok r) t' := by
  unfold Ends
  rw [ExceptT.run_lift, map_eq_pure_bind]
  exact h.bind (Leads.pure _ t')

theorem report (r : Log.Record) (t : FileTree) : Ends (report limit r) t (.ok ()) t := by
  unfold Cli.report
  split
  · exact lift (.print _ t)
  · exact pure () t

theorem reportAll (rs : List Log.Record) (t : FileTree) :
    Ends (reportAll limit rs) t (.ok ()) t := by
  induction rs with
  | nil => exact pure () t
  | cons r rs ih => exact (report r t).bind ih

end Ends

/-! ### Operations of the host -/

theorem Session.find?_of_resolve (h : t.resolve p = some place) (shown : List String)
    (look : FileTree → Place → Option α) : Session.find? ⟨t, shown⟩ p look = look t place := by
  unfold find?
  rw [h, Option.bind_some]

namespace Leads

theorem isFile (h : t.resolve p = some place) : Leads (Host.isFile p) t (t.isFile place) t := by
  intro shown
  refine ⟨shown, ?_⟩
  simp only [Host.isFile, StateT.run_bind, StateT.run_get, pure_bind, Session.find?_of_resolve h]
  cases t.isFile place <;> rfl

theorem isFolder (h : t.resolve p = some place) :
    Leads (Host.isFolder p) t (t.isFolder place) t := by
  intro shown
  refine ⟨shown, ?_⟩
  simp only [Host.isFolder, StateT.run_bind, StateT.run_get, pure_bind, Session.find?_of_resolve h]
  cases t.isFolder place <;> rfl

theorem fileNames (h : t.resolve p = some d) (hd : t.isFolder d = true) :
    Leads (Host.fileNames p) t (.ok (t.fileNames d)) t := by
  intro shown
  refine ⟨shown, ?_⟩
  simp only [Host.fileNames, StateT.run_bind, StateT.run_get, pure_bind,
    Session.find?_of_resolve h, if_pos hd]
  rfl

theorem read {bytes : List UInt8} (h : t.resolve p = some place)
    (hbytes : t.read? place = some bytes) : Leads (Host.read p) t (.ok bytes) t := by
  intro shown
  refine ⟨shown, ?_⟩
  simp only [Host.read, StateT.run_bind, StateT.run_get, pure_bind,
    Session.find?_of_resolve h, hbytes]
  rfl

theorem write (h : t.resolve p = some place) (hplace : t.isFolder place = false)
    (bytes : List UInt8) : Leads (Host.write p bytes) t (.ok ()) (t.put place bytes) := by
  intro shown
  refine ⟨shown, ?_⟩
  have hwrite : Session.write? ⟨t, shown⟩ p bytes = some (t.put place bytes) := by
    unfold Session.write?
    rw [Session.find?_of_resolve h]
    exact if_neg (Bool.eq_false_iff.mp hplace)
  simp only [Host.write, StateT.run_bind, StateT.run_get, pure_bind, hwrite]
  rfl

end Leads

/-! ### Actions -/

/-- The text that bytes spell. -/
def textOf? (bytes : List UInt8) : Option String := (Text.Utf8.decode bytes).toOption

/-- The text of the file at a place, if there is a file and its bytes are a text. -/
def FileTree.text? (t : FileTree) (place : Place) : Option String := (t.read? place).bind textOf?

theorem FileTree.text?_congr (h : t'.read? place = t.read? place) :
    t'.text? place = t.text? place :=
  congrArg (Option.bind · textOf?) h

/-- What reading the text of a file comes to, if the file is there. -/
def textResult (t : FileTree) (place : Place) (file : Path) : Except Abort String :=
  match t.text? place with
  | some text => .ok text
  | none => .error (.notText file)

section
variable {bytes : List UInt8}

theorem Leads.readText (h : t.resolve file = some place) (hbytes : t.read? place = some bytes) :
    Leads (readText file) t (textResult t place file) t := by
  unfold Cli.readText
  refine (Leads.read h hbytes).bind ?_
  unfold textResult FileTree.text? textOf?
  rw [hbytes, Option.bind_some]
  dsimp only
  cases Text.Utf8.decode bytes with
  | ok text => exact .pure _ t
  | error e => exact .pure _ t

theorem Ends.needText (h : t.resolve file = some place) (hbytes : t.read? place = some bytes) :
    Ends (needText file) t (textResult t place file) t := Leads.readText h hbytes

/-- To read a text never stops, whether the host may stop or not. -/
theorem readText_eq_lift (file : Path) :
    (readText file : Action (StateM Session) (Except Abort String)) =
      ExceptT.lift (readText file) := by
  apply ExceptT.ext
  unfold readText
  rw [ExceptT.run_bind]
  show ExceptT.run (ExceptT.lift (Host.read file)) >>= _ = _
  rw [ExceptT.run_lift, ExceptT.run_lift, map_eq_pure_bind, map_eq_pure_bind,
    bind_assoc, bind_assoc]
  congr 1
  funext bytes
  rw [pure_bind]
  dsimp only
  split
  · rfl
  · split <;> rfl

theorem Ends.readText (h : t.resolve file = some place) (hbytes : t.read? place = some bytes) :
    Ends (readText file) t (.ok (textResult t place file)) t := by
  rw [readText_eq_lift]
  exact .lift (Leads.readText h hbytes)

end

theorem Ends.writeText (h : t.resolve file = some place) (hplace : t.isFolder place = false)
    (text : String) : Ends (writeText file text) t (.ok ()) (t.put place text.toUTF8.data.toList) :=
  (Leads.write h hplace _).bind (.pure _ _)

/-- Without a configuration, everything has its default. -/
theorem Ends.readConfiguration (h : t.resolve (.ofText Configuration.fileName) = some place)
    (hplace : t.isFile place = false) : Ends (readConfiguration limit) t (.ok {}) t := by
  unfold Cli.readConfiguration
  refine (Ends.lift (Leads.isFile h)).bind ?_
  rw [if_neg (Bool.eq_false_iff.mp hplace)]
  exact .pure _ t

/-- The names of the files in a folder that have an extension, in name order. -/
def FileTree.units (t : FileTree) (d : Place) (extension : String) : List Name :=
  ((t.fileNames d).filter (Name.hasExtension extension)).mergeSort Name.precedes

theorem FileTree.mem_units {n : Name} {extension : String} :
    n ∈ t.units d extension ↔ n ∈ t.fileNames d ∧ n.extension? = some (.ofText extension) := by
  unfold units Name.hasExtension
  rw [List.mem_mergeSort, List.mem_filter, beq_iff_eq]

/-- Files that are in name order already. -/
theorem FileTree.units_of_pairwise {ns : List Name} {extension : String}
    (h : (t.fileNames d).filter (Name.hasExtension extension) = ns)
    (hordered : ns.Pairwise fun n n' => Name.precedes n n' = true) : t.units d extension = ns := by
  unfold units
  rw [h]
  exact List.mergeSort_of_pairwise hordered

/-- The sources in a folder are its units. -/
theorem Ends.sources (h : t.resolve p = some d) (hd : t.isFolder d = true)
    (hfile : t.isFile d = false) (extension : String) :
    Ends (sources p extension) t (.ok ((t.units d extension).map p.join)) t := by
  unfold Cli.sources
  refine (Ends.lift (Leads.isFile h)).bind ?_
  rw [if_neg (Bool.eq_false_iff.mp hfile)]
  exact (Ends.lift (Leads.fileNames h hd)).bind (.pure _ t)

theorem Leads.isThere (h : t.resolve p = some d) (hd : t.isFolder d = true) :
    Leads (isThere p) t true t := by
  unfold Cli.isThere
  refine (Leads.isFile h).bind ?_
  split
  · exact .pure _ t
  · exact hd ▸ Leads.isFolder h

end JackToolchain.Cli
