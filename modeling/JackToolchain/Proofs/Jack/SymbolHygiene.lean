import Mathlib.Data.List.Nodup
import JackToolchain.Build
import JackToolchain.Proofs.Hack.SourceLines
import JackToolchain.Proofs.Jack.Assembly
import JackToolchain.Proofs.VM.SymbolUses

/-!
# Symbols of programs that are made of classes

The names of classes and subroutines are identifiers: they have neither dots nor dollar signs in
them and do not begin with digits.  So the first dot of a symbol tells functions of different
classes apart, what is behind it tells functions from static variables, and the dollar sign tells
both from the labels inside functions and those of the translator.

Several classes that compile are translated to one program.  If the classes have different names,
and the subroutines in each of them do, the labels of the program are different, none of them is a
static variable or predefined, and every symbol stands for what it is meant to stand for
(`hygienic_program`).
-/

namespace JackToolchain.Jack

open Hack (Line linesText physicalLines predefinedNames registerNames)
open VM (Command Context Label Part Refers Settings Translator declaredLabels entryPoint jumpTargets
  jumpTargets_append programLabels programText readProgram staticSymbol)

/-! ### Names with a dot -/

section
variable {c c' s s' unit unit' : String} {i j : Word}

/-- Names with one dot are the same in front of it and behind it. -/
theorem qualified_inj (hc : '.' ∉ c.toList) (hs : '.' ∉ s.toList)
    (h : c ++ "." ++ s = c' ++ "." ++ s') : c = c' ∧ s = s' := by
  have hlist := congrArg String.toList h
  simp only [String.toList_append, List.append_assoc] at hlist
  obtain ⟨hfront, -, hbehind⟩ := (List.append_cons_inj_of_notMem hc hs).mp hlist
  exact ⟨String.toList_inj.mp hfront, String.toList_inj.mp hbehind⟩

theorem dot_notMem_decimal (w : Word) : '.' ∉ w.decimal.toList := fun hmem =>
  absurd (Text.isDigit_of_mem_toString hmem) (by decide)

/-- An identifier does not begin with a digit. -/
theorem not_isIdentifier_decimal (w : Word) : ¬ IsIdentifier w.decimal.toList := by
  intro h
  obtain ⟨x, xs, hlist, hx, -⟩ := isSymbol_of_isIdentifier h
  have hdigit : x.isDigit = true := Text.isDigit_of_mem_toString (hlist ▸ List.mem_cons_self)
  rw [Hack.isSymbolStart_of_isDigit hdigit] at hx
  cases hx

theorem decimal_inj (h : i.decimal = j.decimal) : i = j :=
  BitVec.eq_of_toNat_eq (Text.toString_inj h)

/-- **Static variables** of different units or with different indices have different symbols. -/
theorem staticSymbol_inj (hunit : IsIdentifier unit.toList)
    (h : staticSymbol unit i = staticSymbol unit' j) : unit = unit' ∧ i = j := by
  obtain ⟨hunits, hindices⟩ :=
    qualified_inj (dot_notMem_of_isIdentifier hunit) (dot_notMem_decimal i) h
  exact ⟨hunits, decimal_inj hindices⟩

/-- A function is no static variable. -/
theorem IsQualified.ne_staticSymbol {name : String} (h : IsQualified name) (unit : String)
    (i : Word) : name ≠ staticSymbol unit i := by
  obtain ⟨c, s, hc, hs, rfl⟩ := h
  intro heq
  obtain ⟨-, rfl⟩ :=
    qualified_inj (dot_notMem_of_isIdentifier hc) (dot_notMem_of_isIdentifier hs) heq
  exact not_isIdentifier_decimal i hs

theorem dot_mem_staticSymbol : '.' ∈ (staticSymbol unit i).toList := by
  unfold staticSymbol
  simp

theorem dollar_notMem_staticSymbol (hunit : IsIdentifier unit.toList) :
    '$' ∉ (staticSymbol unit i).toList := by
  have hindex : '$' ∉ i.decimal.toList :=
    fun hmem => absurd (Text.isDigit_of_mem_toString hmem) (by decide)
  unfold staticSymbol
  simp [dollar_notMem_of_isIdentifier hunit, hindex]

end

/-! ### Jumps in classes -/

section
variable {context : Context} {c : Class} {outer : Scope} {n : Nat}

/-- Inside a function, the labels that commands jump to are in the function. -/
theorem targetsOf_of_inner {commands : List Command} (h : commands.all inner = true) :
    context.targetsOf commands = (jumpTargets commands).map context.scopedLabel := by
  induction commands generalizing context with
  | nil => rfl
  | cons command rest ih =>
    rw [List.all_cons, Bool.and_eq_true] at h
    have hlabel : (context.after command).scopedLabel = context.scopedLabel := by
      funext label
      unfold Context.scopedLabel
      rw [function_after_of_inner h.1]
    rw [Context.targetsOf, ih h.2, hlabel, ← List.singleton_append, jumpTargets_append,
      List.map_append]
    congr 1
    cases command <;> rfl

theorem Subroutine.mem_labelsOf_code (s : Subroutine) {x : Label}
    (hx : x ∈ Label.function (c.name.name ++ "." ++ s.name.name) ::
      (declaredLabels (s.code c outer n)).map (.inside (c.name.name ++ "." ++ s.name.name))) :
    x ∈ context.labelsOf (s.code c outer n) := by
  rw [← s.named_code] at hx
  exact (List.mem_filter.mp hx).1

/-- **A subroutine jumps to labels that it declares.** -/
theorem Subroutine.targetsOf_code_subset (s : Subroutine)
    (h : IsQualified (c.name.name ++ "." ++ s.name.name)) :
    context.targetsOf (s.code c outer n) ⊆ (context.labelsOf (s.code c outer n)).map
      Label.text := by
  intro name hname
  have htargets : jumpTargets
      (s.kind.setupCode (c.fieldCount outer) ++ statementsCode (s.naming c outer) n s.body) ⊆
      declaredLabels (s.code c outer n) := by
    have hbody := jumpTargets_statementsCode_subset (s.naming c outer) n s.body
    rw [jumpTargets_append, jumpTargets_of_straight (s.kind.straight_setupCode _), List.nil_append,
      Subroutine.code, ← List.singleton_append, VM.declaredLabels_append, VM.declaredLabels_append]
    exact List.subset_append_of_subset_right _ (List.subset_append_of_subset_right _ hbody)
  rw [Subroutine.code, Context.targetsOf, targetsOf_of_inner s.inner_body] at hname
  obtain ⟨label, hlabel, rfl⟩ :=
    List.mem_map.mp ((List.mem_append.mp hname).resolve_left List.not_mem_nil)
  refine List.mem_map.mpr ⟨.inside (c.name.name ++ "." ++ s.name.name) label, ?_, ?_⟩
  · exact s.mem_labelsOf_code (List.mem_cons_of_mem _ (List.mem_map_of_mem (htargets hlabel)))
  · exact (Context.scopedLabel_eq_text
      (c := context.after (.function _ (BitVec.ofNat 16 s.localCount))) h.isFunctionName label).symm

theorem targetsOf_subroutineCodes_subset {subroutines : List Subroutine}
    (h : ∀ s ∈ subroutines, IsQualified (c.name.name ++ "." ++ s.name.name)) :
    context.targetsOf (subroutineCodes c outer n subroutines).flatten ⊆
      (context.labelsOf (subroutineCodes c outer n subroutines).flatten).map Label.text := by
  induction subroutines generalizing context n with
  | nil => exact List.nil_subset _
  | cons s rest ih =>
    obtain ⟨hs, hrest⟩ := List.forall_mem_cons.mp h
    rw [subroutineCodes, List.flatten_cons, Context.targetsOf_append, Context.labelsOf_append,
      List.map_append]
    exact List.append_subset.mpr ⟨List.subset_append_of_subset_left _ (s.targetsOf_code_subset hs),
      List.subset_append_of_subset_right _ (ih hrest)⟩

/-- The functions of a class are among its labels. -/
theorem function_mem_labelsOf {subroutines : List Subroutine} {s : Subroutine}
    (hs : s ∈ subroutines) :
    .function (c.name.name ++ "." ++ s.name.name) ∈
      context.labelsOf (subroutineCodes c outer n subroutines).flatten := by
  induction subroutines generalizing context n with
  | nil => cases hs
  | cons first rest ih =>
    rw [subroutineCodes, List.flatten_cons, Context.labelsOf_append, List.mem_append]
    rcases List.mem_cons.mp hs with rfl | hs
    · exact .inl (s.mem_labelsOf_code List.mem_cons_self)
    · exact .inr (ih hs)

end

/-! ### Units that compile -/

/-- A source that compiles, with its tree and the text that it is compiled to. -/
structure CompiledUnit where
  source : String
  tree : Class
  output : String
  parsed : parseUnit source = .ok tree
  compiled : compile .vm source = .ok output

namespace CompiledUnit

/-- The name of the class. -/
def name (u : CompiledUnit) : String := u.tree.name.name

/-- The names of the subroutines, without that of the class. -/
def subroutineNames (u : CompiledUnit) : List String := u.tree.subroutines.map fun s => s.name.name

/-- The unit declares the function of a name. -/
def Declares (u : CompiledUnit) (name : String) : Prop :=
  ∃ s ∈ u.subroutineNames, name = u.name ++ "." ++ s

/-- A command that the unit is compiled to calls the function of a name. -/
def Calls (u : CompiledUnit) (name : String) : Prop :=
  ∃ program, readProgram u.output = .ok program ∧ ∃ l ∈ program, ∃ args, l.command = .call name args

variable {u : CompiledUnit} {c : Context} {name : String}

theorem spelled (u : CompiledUnit) : u.tree.Spelled := spelled_of_parseUnit u.parsed

theorem isIdentifier_name (u : CompiledUnit) : IsIdentifier u.name.toList :=
  u.spelled.name.isIdentifier

theorem isQualified_of_declares (h : u.Declares name) : IsQualified name := by
  obtain ⟨_, hmem, rfl⟩ := h
  obtain ⟨s, hs, rfl⟩ := List.mem_map.mp hmem
  exact ⟨_, _, u.spelled.name.isIdentifier, (u.spelled.subroutines s hs).name.isIdentifier, rfl⟩

theorem output_eq (u : CompiledUnit) : u.output = programText u.tree.part.commands := by
  obtain ⟨g, hrun, houtput⟩ := run_of_compile u.parsed u.compiled
  rw [houtput]
  exact congrArg programText (Class.commands_of_compile hrun).2

theorem source_part (u : CompiledUnit) : u.tree.part.source = (u.name, u.output) := by
  rw [u.output_eq]
  rfl

theorem calls_of_mem {args : Word} (h : .call name args ∈ u.tree.part.commands) : u.Calls name := by
  have hnames :=
    fun command hcommand => ((Class.sound_part u.spelled).wellNamed command hcommand).isName
  refine ⟨VM.numberedFrom 1 u.tree.part.commands, ?_, ?_⟩
  · rw [u.output_eq]
    exact VM.readProgram_programText hnames
  · rw [← VM.map_numberedFrom 1 u.tree.part.commands] at h
    obtain ⟨l, hl, hcommand⟩ := List.mem_map.mp h
    exact ⟨l, hl, args, hcommand⟩

end CompiledUnit

/-- A source that compiles, with the names in it, is a unit. -/
theorem exists_compiledUnit {source name : String} {names : List String}
    (hnames : (parseUnit source).toOption.map
      (fun c => (c.name.name, c.subroutines.map fun s => s.name.name)) = some (name, names))
    (hcompiles : (compile .vm source).toOption.isSome = true) :
    ∃ u : CompiledUnit, u.source = source ∧ u.name = name ∧ u.subroutineNames = names := by
  cases hparse : parseUnit source with
  | error e =>
    rw [hparse] at hnames
    cases hnames
  | ok c =>
    rw [hparse] at hnames
    obtain ⟨output, houtput⟩ := exists_output hcompiles
    obtain ⟨hname, hsubroutines⟩ := Prod.mk.inj (Option.some.inj hnames)
    exact ⟨⟨source, c, output, hparse, houtput⟩, rfl, hname, hsubroutines⟩

/-! ### Labels of several classes -/

section
variable {units : List CompiledUnit} {c : Context} {settings : Settings} {name : String}

/-- The parts of a program that units make up. -/
def parts (units : List CompiledUnit) : List Part := units.map fun u => u.tree.part

theorem sound_parts : ∀ p ∈ parts units, p.Sound :=
  List.forall_mem_map.mpr fun u _ => Class.sound_part u.spelled

theorem declares_of_mem_named {x : Label}
    (hx : x ∈ (c.partsLabels (parts units)).filter Label.isNamed) :
    ∃ u ∈ units, u.Declares x.owner := by
  induction units generalizing c with
  | nil => cases hx
  | cons u rest ih =>
    rw [parts, List.map_cons, Context.partsLabels, List.filter_append, List.mem_append] at hx
    rcases hx with hx | hx
    · obtain ⟨s, hs, howner⟩ := owner_of_mem_named hx
      exact ⟨u, List.mem_cons_self, s.name.name, List.mem_map_of_mem hs, howner⟩
    · obtain ⟨v, hv, hdeclares⟩ := ih hx
      exact ⟨v, List.mem_cons_of_mem u hv, hdeclares⟩

/-- **The labels that classes name are different** if the classes and the subroutines in each have
different names. -/
theorem nodup_named_parts (hclasses : (units.map CompiledUnit.name).Nodup)
    (hsubroutines : ∀ u ∈ units, u.subroutineNames.Nodup) :
    ((c.partsLabels (parts units)).filter Label.isNamed).Nodup := by
  induction units generalizing c with
  | nil => exact List.nodup_nil
  | cons u rest ih =>
    obtain ⟨hu, hrest⟩ := List.nodup_cons.mp hclasses
    obtain ⟨hfirst, hothers⟩ := List.forall_mem_cons.mp hsubroutines
    rw [parts, List.map_cons, Context.partsLabels, List.filter_append, List.nodup_append]
    refine ⟨nodup_named hfirst, ih hrest hothers, ?_⟩
    -- The class of a label is found in front of the dot of its owner.
    rintro x hx y hy rfl
    obtain ⟨s, hs, howner⟩ := owner_of_mem_named hx
    obtain ⟨v, hv, s', hs', howner'⟩ := declares_of_mem_named hy
    have hs := (u.spelled.subroutines s hs).name.isIdentifier
    obtain ⟨hnames, -⟩ :=
      qualified_inj (dot_notMem_of_isIdentifier u.isIdentifier_name) (dot_notMem_of_isIdentifier hs)
      (howner.symm.trans howner')
    exact hu (List.mem_map.mpr ⟨v, hv, hnames.symm⟩)

/-- Classes jump to labels that they declare. -/
theorem partsTargets_subset :
    c.partsTargets (parts units) ⊆ (c.partsLabels (parts units)).map Label.text := by
  induction units generalizing c with
  | nil => exact List.nil_subset _
  | cons u rest ih =>
    have hqualified : ∀ s ∈ u.tree.subroutines,
        IsQualified (u.tree.name.name ++ "." ++ s.name.name) := fun s hs =>
      ⟨_, _, u.spelled.name.isIdentifier, (u.spelled.subroutines s hs).name.isIdentifier, rfl⟩
    rw [parts, List.map_cons, Context.partsTargets, Context.partsLabels, List.map_append]
    exact List.append_subset.mpr
      ⟨List.subset_append_of_subset_left _ (targetsOf_subroutineCodes_subset hqualified),
      List.subset_append_of_subset_right _ ih⟩

/-- What a class declares is a label of the program. -/
theorem mem_labels_of_declares {u : CompiledUnit} (hu : u ∈ units) (h : u.Declares name) :
    name ∈ (c.partsLabels (parts units)).map Label.text := by
  induction units generalizing c with
  | nil => cases hu
  | cons v rest ih =>
    rw [parts, List.map_cons, Context.partsLabels, List.map_append, List.mem_append]
    rcases List.mem_cons.mp hu with rfl | hu
    · obtain ⟨_, hmem, rfl⟩ := h
      obtain ⟨s, hs, rfl⟩ := List.mem_map.mp hmem
      exact .inl (List.mem_map.mpr ⟨_, function_mem_labelsOf hs, Label.text_function _⟩)
    · exact .inr (ih hu)

/-- No label of a program is a static variable. -/
theorem ne_staticSymbol_of_mem_programLabels {x : Label}
    (hx : x ∈ programLabels settings (parts units)) {unit : String}
    (hunit : IsIdentifier unit.toList) (i : Word) : x.text ≠ staticSymbol unit i := by
  rcases x.eq_function_or_dollar_mem_text with ⟨f, rfl⟩ | hdollar
  · have hmem : .function f ∈ ((Translator.new settings).context.partsLabels (parts units)).filter
        Label.isNamed := by
      refine List.mem_filter.mpr ⟨(List.mem_append.mp hx).resolve_left fun hsetup => ?_, rfl⟩
      unfold Translator.setupLabels at hsetup
      split at hsetup
      · cases List.mem_singleton.mp hsetup
      · cases hsetup
    obtain ⟨u, -, hdeclares⟩ := declares_of_mem_named hmem
    rw [Label.text_function]
    exact (CompiledUnit.isQualified_of_declares hdeclares).ne_staticSymbol unit i
  · intro heq
    rw [heq] at hdollar
    exact dollar_notMem_staticSymbol hunit hdollar

end

/-! ### Hygiene -/

/-- **The symbols of a program are clean**: the functions that units declare are labels, all labels
are different, they are neither predefined nor static variables, static variables are different, and
whatever is loaded is a register, a label, a static variable, or a function that is called and that
none of the units declares. -/
structure Hygienic (settings : Settings) (units : List CompiledUnit) (lines : List Line) :
    Prop where
  declared : ∀ u ∈ units, ∀ name, u.Declares name → name ∈ Hack.labelsOf lines
  distinct : (Hack.labelsOf lines).Nodup
  not_predefined : ∀ name ∈ Hack.labelsOf lines, name ∉ predefinedNames
  not_static : ∀ name ∈ Hack.labelsOf lines, ∀ u ∈ units, ∀ i, name ≠ staticSymbol u.name i
  static_inj : ∀ u ∈ units, ∀ v ∈ units, ∀ i j, staticSymbol u.name i = staticSymbol v.name j →
    u = v ∧ i = j
  resolved : ∀ name ∈ lines.filterMap Line.symbol?,
      name ∈ registerNames ∨ name ∈ Hack.labelsOf lines ∨
      (∃ u ∈ units, ∃ i, name = staticSymbol u.name i) ∨
      ((∃ u ∈ units, u.Calls name) ∨ settings.bootstrap = true ∧ name = entryPoint) ∧
      ∀ u ∈ units, ¬ u.Declares name

section
variable {units : List CompiledUnit} {settings : Settings} {t : Translator}

theorem addUnits_cons {unit source : String} {rest : List (String × String)} :
    Build.addUnits t ((unit, source) :: rest) =
      match Build.addUnit t unit source with
      | (.ok _, t) => Build.addUnits t rest
      | (.error e, _) => .error e := rfl

/-- **Units that compile can be added** to a program, whatever has been added before. -/
theorem addUnits_compiled :
    Build.addUnits t (units.map fun u => (u.name, u.source)) =
      .ok (((parts units).map Part.source).foldl (fun t u => (t.translateUnit u.1 u.2).2) t) := by
  induction units generalizing t with
  | nil => rfl
  | cons u rest ih =>
    have hsound := Class.sound_part u.spelled
    obtain ⟨t', htranslate, -⟩ :=
      Translator.translateUnit_of_translatable t u.name hsound.wellNamed hsound.translatable
    rw [← u.output_eq] at htranslate
    have hadd : Build.addUnit t u.name u.source = (.ok u.output, t') := by
      unfold Build.addUnit
      rw [u.compiled]
      dsimp only
      rw [htranslate]
    have hstep : Build.addUnits t ((u :: rest).map fun u => (u.name, u.source)) =
        Build.addUnits t' (rest.map fun u => (u.name, u.source)) := by
      rw [List.map_cons, addUnits_cons, hadd]
    have hfold : ((parts (u :: rest)).map Part.source).foldl
        (fun t u => (t.translateUnit u.1 u.2).2) t =
        ((parts rest).map Part.source).foldl (fun t u => (t.translateUnit u.1 u.2).2) t' := by
      rw [parts, List.map_cons, List.map_cons, List.foldl_cons, u.source_part, htranslate]
      rfl
    rw [hstep, hfold]
    exact ih

theorem mem_labelsOf_program {name : String} :
    name ∈ Hack.labelsOf (Translator.program settings ((parts units).map Part.source)) ↔
      name ∈ (programLabels settings (parts units)).map Label.text ∨ settings.endLoop = true ∧
      name = "END" := by
  rw [Hack.labelsOf, VM.labelsOf_program sound_parts, List.mem_append]
  refine or_congr_right ?_
  split <;> simp [*]

theorem partsLabels_subset :
    ((Translator.new settings).context.partsLabels (parts units)).map Label.text ⊆
      Hack.labelsOf (Translator.program settings ((parts units).map Part.source)) := fun _ hname =>
  mem_labelsOf_program.mpr (.inl (List.map_subset _ (List.subset_append_right _ _) hname))

/-- Every symbol of a program is resolved. -/
theorem resolved_program {name : String}
    (h : name ∈ (Translator.program settings ((parts units).map Part.source)).filterMap
      Line.symbol?) :
    name ∈ registerNames ∨
      name ∈ Hack.labelsOf (Translator.program settings ((parts units).map Part.source)) ∨
      (∃ u ∈ units, ∃ i, name = staticSymbol u.name i) ∨
      ((∃ u ∈ units, u.Calls name) ∨ settings.bootstrap = true ∧ name = entryPoint) ∧
        ∀ u ∈ units, ¬ u.Declares name := by
  cases Translator.refers_of_program sound_parts name h with
  | register h => exact .inl h
  | label h =>
    right; left
    rcases List.mem_append.mp h with h | h
    · exact h
    · exact partsLabels_subset (partsTargets_subset h)
  | static i hunit =>
    right; right; left
    obtain ⟨p, hp, rfl⟩ := List.mem_map.mp hunit
    obtain ⟨u, hu, rfl⟩ := List.mem_map.mp hp
    exact ⟨u, hu, i, rfl⟩
  | function h =>
    by_cases hdeclared : ∃ u ∈ units, u.Declares name
    · right; left
      obtain ⟨u, hu, hdeclares⟩ := hdeclared
      exact partsLabels_subset (mem_labels_of_declares hu hdeclares)
    · right; right; right
      refine ⟨?_, fun u hu hdeclares => hdeclared ⟨u, hu, hdeclares⟩⟩
      rcases List.mem_append.mp h with h | h
      · right
        unfold Translator.setupCalls at h
        split at h
        · next hbootstrap =>
          cases List.mem_singleton.mp h
          exact ⟨hbootstrap, rfl⟩
        · cases h
      · left
        obtain ⟨p, hp, hcall⟩ := List.mem_flatMap.mp h
        obtain ⟨u, hu, rfl⟩ := List.mem_map.mp hp
        exact ⟨u, hu, CompiledUnit.calls_of_mem hcall⟩

theorem hygienic_program (hclasses : (units.map CompiledUnit.name).Nodup)
    (hsubroutines : ∀ u ∈ units, u.subroutineNames.Nodup) :
    Hygienic settings units (Translator.program settings ((parts units).map Part.source)) := by
  have hproper : ∀ x ∈ programLabels settings (parts units), x.Proper :=
    VM.proper_programLabels sound_parts
  obtain ⟨hdistinct, hpredefined⟩ := VM.nodup_texts hproper
    (VM.nodup_programLabels (nodup_named_parts hclasses hsubroutines)) settings.endLoop
  rw [← VM.labelsOf_program sound_parts] at hdistinct hpredefined
  exact
    { declared := fun u hu name hdeclares =>
        partsLabels_subset (mem_labels_of_declares hu hdeclares)
      distinct := hdistinct
      not_predefined := hpredefined
      not_static := by
        intro name hname u hu i
        rcases mem_labelsOf_program.mp hname with hname | ⟨-, rfl⟩
        · obtain ⟨x, hx, rfl⟩ := List.mem_map.mp hname
          exact ne_staticSymbol_of_mem_programLabels hx u.isIdentifier_name i
        · intro heq
          have hdot : '.' ∈ "END".toList := heq ▸ dot_mem_staticSymbol
          exact absurd hdot (by decide)
      static_inj := by
        intro u hu v hv i j h
        obtain ⟨hnames, hindices⟩ := staticSymbol_inj u.isIdentifier_name h
        exact ⟨List.inj_on_of_nodup_map hclasses hu hv hnames, hindices⟩
      resolved := fun name hname => resolved_program hname }

/-- **Classes with different names make up a program with clean symbols**, in whatever order they
are translated. -/
theorem hygienic_of_addUnits (settings : Settings) (hclasses : (units.map CompiledUnit.name).Nodup)
    (hsubroutines : ∀ u ∈ units, u.subroutineNames.Nodup) :
    ∃ t lines, Build.addUnits (.new settings) (units.map fun u => (u.name, u.source)) = .ok t ∧
      t.finish = linesText lines ∧
      physicalLines t.finish.toList = (lines.map fun l => l.text.toList) ++ [[]] ∧
      Hygienic settings units lines := by
  have hprintable : ∀ l ∈ Translator.program settings ((parts units).map Part.source),
      l.Printable :=
    Translator.printable_program (Translator.namesAreSymbols_of_sound sound_parts)
  exact ⟨_, _, addUnits_compiled, rfl, Hack.physicalLines_linesText hprintable,
    hygienic_program hclasses hsubroutines⟩

end

/-- A class with a loop, a comparison and a call of a subroutine of its own. -/
def clockSource : String :=
  "class Clock \x7b function void run() \x7b while (1 < 2) \x7b do tick(); \x7d return; \x7d "
    ++ "function int tick() \x7b if (true) \x7b return 6 * 7; \x7d return 0; \x7d \x7d"

/-- A class that calls subroutines of a class that is not there. -/
def nameSource : String := "class Name \x7b function String tick() \x7b return \"tick\"; \x7d \x7d"

/-- Both classes make up a program. -/
theorem hygienic_of_addUnits_pair :
    ∃ u v : CompiledUnit, u.source = clockSource ∧ v.source = nameSource ∧
    ([u, v].map CompiledUnit.name).Nodup ∧ (∀ w ∈ [u, v], w.subroutineNames.Nodup) ∧
      ∀ settings, ∃ t lines,
        Build.addUnits (.new settings) [("Clock", clockSource), ("Name", nameSource)] = .ok t ∧
          t.finish = linesText lines ∧
          physicalLines t.finish.toList = (lines.map fun l => l.text.toList) ++ [[]] ∧
          Hygienic settings [u, v] lines := by
  obtain ⟨u, husource, huname, hunames⟩ : ∃ u : CompiledUnit, u.source = clockSource ∧
      u.name = "Clock" ∧ u.subroutineNames = ["run", "tick"] :=
    exists_compiledUnit (by decide +kernel) (by decide +kernel)
  obtain ⟨v, hvsource, hvname, hvnames⟩ : ∃ v : CompiledUnit, v.source = nameSource ∧
      v.name = "Name" ∧ v.subroutineNames = ["tick"] :=
    exists_compiledUnit (by decide +kernel) (by decide +kernel)
  have hclasses : ([u, v].map CompiledUnit.name).Nodup := by
    rw [List.map_cons, List.map_singleton, huname, hvname]
    decide
  have hsubroutines : ∀ w ∈ [u, v], w.subroutineNames.Nodup := by
    rw [List.forall_mem_cons, List.forall_mem_singleton, hunames, hvnames]
    decide
  refine ⟨u, v, husource, hvsource, hclasses, hsubroutines, fun settings => ?_⟩
  have h := hygienic_of_addUnits settings hclasses hsubroutines
  rwa [List.map_cons, List.map_singleton, huname, hvname, husource, hvsource] at h

end JackToolchain.Jack
