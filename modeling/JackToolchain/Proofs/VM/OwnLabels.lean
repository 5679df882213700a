import JackToolchain.Proofs.Hack.Reference
import JackToolchain.Proofs.VM.LabelNames

/-!
# The labels that a translator makes up

A translator makes up two labels for each comparison and one for each call.  It may be told to do
anything in any order: to translate units, whole or command by command, to begin units without
translating them, and to translate what has no block.  Names of units and functions may be any
texts, so that the labels of a program may look like those that the translator makes up, and the
owner in front of such a label need not be found again.  But the number at its end can be read back,
and so can the kind of label that the number is for (`Label.anonymous_eq_of_text`).  Numbers only
grow (`Succession`), so the labels of a whole run are different (`nodup_ownLabels_run`).
-/

namespace JackToolchain.VM

open Hack Block Text

/-! ### Reading labels back -/

/-- **A number at the end of a text** can be read back, and so can what stands in front of it,
unless that ends with a digit, too. -/
theorem append_toString_inj {front front' : String} {n k : Nat}
    (h : front ++ toString n = front' ++ toString k)
    (hfront : ∀ c ∈ front.toList.getLast?, c.isDigit = false)
    (hfront' : ∀ c ∈ front'.toList.getLast?, c.isDigit = false) : front = front' ∧ n = k := by
  have hreverse := congrArg (fun text : String => text.toList.reverse) h
  simp only [String.toList_append, List.reverse_append] at hreverse
  have hdigits (n : Nat) : ∀ c ∈ (toString n).toList.reverse, c.isDigit = true :=
    fun c hc => isDigit_of_mem_toString (List.mem_reverse.mp hc)
  rw [← List.head?_reverse] at hfront hfront'
  constructor
  · have hdrop := congrArg (List.dropWhile Char.isDigit) hreverse
    rw [dropWhile_run (hdigits n) hfront, dropWhile_run (hdigits k) hfront'] at hdrop
    exact String.toList_inj.mp (List.reverse_inj.mp hdrop)
  · have htake := congrArg (List.takeWhile Char.isDigit) hreverse
    rw [takeWhile_run (hdigits n) hfront, takeWhile_run (hdigits k) hfront'] at htake
    exact toString_inj (String.toList_inj.mp (List.reverse_inj.mp htake))

namespace Label

variable {x y : Label}

/-- The label without its owner, if the translator has made it up. -/
def anonymous : Label → Label
  | comparison _ n holds => comparison "" n holds
  | returning _ n => returning "" n
  | x => x

/-- The text between the owner of a label that has been made up and its number. -/
def mark : Label → String
  | comparison _ _ true => "$CMP_TRUE_"
  | comparison _ _ false => "$CMP_END_"
  | returning _ _ => "$ret."
  | function _ | inside _ _ => ""

/-- The number at the end of a label that has been made up. -/
def number : Label → Nat
  | comparison _ n _ | returning _ n => n
  | function _ | inside _ _ => 0

theorem text_of_not_isNamed (h : x.isNamed = false) :
    x.text = x.owner ++ x.mark ++ toString x.number := by
  cases x with
  | function | inside => cases h
  | comparison unit n holds => cases holds <;> exact String.append_assoc.symm
  | returning f n => exact String.append_assoc.symm

/-- The texts that stand in front of the numbers. -/
def marks : List String := ["$CMP_TRUE_", "$CMP_END_", "$ret."]

theorem mark_mem_marks (h : x.isNamed = false) : x.mark ∈ marks := by
  cases x with
  | function | inside => cases h
  | comparison unit n holds => cases holds <;> simp [mark, marks]
  | returning f n => simp [mark, marks]

/-- A mark is found at the end of a text, as none ends like another one. -/
theorem mark_eq_of_append {m m' owner owner' : String} (hm : m ∈ marks) (hm' : m' ∈ marks)
    (h : owner ++ m = owner' ++ m') : m = m' := by
  have hmarks : ∀ m ∈ marks, ∀ m' ∈ marks, m.toList <:+ m'.toList → m = m' := by decide
  have hlist := congrArg String.toList h
  rw [String.toList_append, String.toList_append] at hlist
  have hsuffix : m.toList <:+ owner'.toList ++ m'.toList := ⟨owner.toList, hlist⟩
  rcases List.suffix_or_suffix_of_suffix hsuffix (List.suffix_append _ _) with hends | hends
  · exact hmarks m hm m' hm' hends
  · exact (hmarks m' hm' m hm hends).symm

theorem getLast?_append_mark {m : String} (owner : String) (h : m ∈ marks) :
    ∀ c ∈ (owner ++ m).toList.getLast?, c.isDigit = false := by
  have hmarks : ∀ m ∈ marks, m.toList ≠ [] ∧ ∀ c ∈ m.toList.getLast?, c.isDigit = false := by decide
  obtain ⟨hne, hlast⟩ := hmarks m h
  rw [String.toList_append, List.getLast?_append_of_ne_nil _ hne]
  exact hlast

theorem anonymous_eq_of_mark (hx : x.isNamed = false) (hy : y.isNamed = false)
    (hmark : x.mark = y.mark) (hnumber : x.number = y.number) : x.anonymous = y.anonymous := by
  cases x with
  | function | inside => cases hx
  | comparison unit n holds =>
    cases y with
    | function | inside => cases hy
    | comparison unit' k holds' =>
      cases hnumber
      cases holds <;> cases holds' <;> first | rfl | simp [mark] at hmark
    | returning f k => cases holds <;> simp [mark] at hmark
  | returning f n =>
    cases y with
    | function | inside => cases hy
    | comparison unit k holds => cases holds <;> simp [mark] at hmark
    | returning f' k =>
      cases hnumber
      rfl

/-- **The labels that a translator makes up** have different texts, unless they are the same apart
from their owners. -/
theorem anonymous_eq_of_text (hx : x.isNamed = false) (hy : y.isNamed = false)
    (h : x.text = y.text) : x.anonymous = y.anonymous := by
  have hxmark := mark_mem_marks hx
  have hymark := mark_mem_marks hy
  rw [text_of_not_isNamed hx, text_of_not_isNamed hy] at h
  obtain ⟨hfront, hnumber⟩ :=
    append_toString_inj h (getLast?_append_mark x.owner hxmark)
      (getLast?_append_mark y.owner hymark)
  exact anonymous_eq_of_mark hx hy (mark_eq_of_append hxmark hymark hfront) hnumber

theorem Between.anonymous {c c' : Context} (h : x.Between c c') : x.anonymous.Between c c' := by
  cases x <;> exact h

theorem isNamed_anonymous (x : Label) : x.anonymous.isNamed = x.isNamed := by
  cases x <;> rfl

end Label

/-! ### Blocks -/

/-- A command that has been translated, in a context. -/
structure Written where
  context : Context
  command : Command

namespace Written

/-- The labels that the block of a command makes up. -/
def ownLabels (w : Written) : List String :=
  match w.command with
  | .arith .eq | .arith .gt | .arith .lt => [w.context.trueLabel, w.context.endLabel]
  | .call _ _ => [w.context.returnLabel]
  | _ => []

/-- The label that the block of a command declares because the program says so. -/
def givenLabels (w : Written) : List String :=
  match w.command with
  | .label name => [w.context.scopedLabel name]
  | .function name _ => [name]
  | _ => []

/-- The labels that are made up, before they are put together. -/
def made (w : Written) : List Label := (w.context.labels w.command).filter fun x => !x.isNamed

theorem isNamed_of_mem_made {w : Written} {x : Label} (h : x ∈ w.made) : x.isNamed = false := by
  simpa using List.of_mem_filter h

theorem ownLabels_eq (w : Written) : w.ownLabels = w.made.map Label.text := by
  obtain ⟨c, command⟩ := w
  cases command with
  | arith op =>
    have htexts : [c.trueLabel, c.endLabel] =
        [(Label.comparison c.unit c.compares true).text,
        (Label.comparison c.unit c.compares false).text] := by
      simp only [Context.trueLabel, Context.endLabel, Label.text, Label.owner, Label.tail,
        String.append_assoc]
    cases op with
    | eq | gt | lt => exact htexts
    | add | sub | neg | and | or | not => rfl
  | call name args =>
    have htext : c.returnLabel = (Label.returning c.function c.calls).text := by
      rw [Context.returnLabel, Label.text, Label.owner, Label.tail, String.append_assoc]
    exact congrArg (fun text => [text]) htext
  | label | function | push | pop | goto | ifGoto | ret => rfl

theorem labelsOf_block {w : Written} {block : List Line}
    (h : w.context.block w.command = .ok block) :
    labelsOf block = w.ownLabels ++ w.givenLabels := by
  obtain ⟨c, command⟩ := w
  cases command with
  | push segment index =>
    obtain ⟨access, -, hlines⟩ := Context.access_of_pushBlock h
    cases access <;> cases hlines <;> rfl
  | pop segment index =>
    obtain ⟨access, -, hlines⟩ := Context.access_of_popBlock h
    cases access <;> cases hlines <;> rfl
  | arith op => cases h; cases op <;> rfl
  | function name locals =>
    cases h
    exact congrArg (name :: ·) (Context.filterMap_pushZeros rfl locals.toNat)
  | label | call | goto | ifGoto | ret => cases h; rfl

end Written

/-! ### Runs -/

/-- Something that a translator can be told to do. -/
inductive Operation where
  /-- To read and translate a unit. -/
  | translateUnit (unit source : String)
  | beginUnit (unit : String)
  /-- To translate a command. -/
  | write (command : Command)

namespace Context

/-- The commands that are translated of some commands: those in front of the first that has no
block. -/
def written (c : Context) : List Command → List Written
  | [] => []
  | command :: rest =>
    match c.block command with
    | .ok _ => ⟨c, command⟩ :: (c.after command).written rest
    | .error _ => []

end Context

namespace Translator

/-- The translator after an operation, which may have failed. -/
def perform (t : Translator) : Operation → Translator
  | .translateUnit unit source => (t.translateUnit unit source).2
  | .beginUnit unit => t.beginUnit unit
  | .write command => (t.write command).2

/-- The commands that an operation translates. -/
def written (t : Translator) : Operation → List Written
  | .translateUnit unit source =>
    match readProgram source with
    | .ok program => (t.beginUnit unit).context.written (program.map (·.command))
    | .error _ => []
  | .beginUnit _ => []
  | .write command => t.context.written [command]

/-- The commands that operations translate one after the other. -/
def history (t : Translator) : List Operation → List Written
  | [] => []
  | operation :: rest => t.written operation ++ (t.perform operation).history rest

/-- The translator behind a run. -/
def run (settings : Settings) (operations : List Operation) : Translator :=
  operations.foldl perform (new settings)

/-- The commands that a run translates.  The bootstrap has a call of its own. -/
def runHistory (settings : Settings) (operations : List Operation) : List Written :=
  (if settings.bootstrap then [⟨{}, .call entryPoint 0⟩] else [])
    ++ (new settings).history operations

end Translator

/-! ### Numbers -/

/-- **Commands have been translated in this order**, each with the counters that those before it
leave. -/
inductive Succession : Context → List Written → Context → Prop where
  | nil {c c' : Context} : c.NotBehind c' → Succession c [] c'
  | cons {c c' d : Context} {command : Command} {ws : List Written} : c.NotBehind d →
      Succession (d.after command) ws c' → Succession c (⟨d, command⟩ :: ws) c'

namespace Succession

variable {c c' c'' : Context} {ws ws' : List Written}

theorem weaken (h : c.NotBehind c') (hws : Succession c' ws c'') : Succession c ws c'' := by
  cases hws with
  | nil h' => exact .nil (h.trans h')
  | cons h' hrest => exact .cons (h.trans h') hrest

theorem append (h : Succession c ws c') (h' : Succession c' ws' c'') :
    Succession c (ws ++ ws') c'' := by
  induction h with
  | nil hbehind => exact h'.weaken hbehind
  | cons hbehind _ ih => exact .cons hbehind (ih h')

theorem notBehind (h : Succession c ws c') : c.NotBehind c' := by
  induction h with
  | nil hbehind => exact hbehind
  | cons hbehind _ ih => exact (hbehind.trans Context.notBehind_after).trans ih

theorem between_made (h : Succession c ws c') : ∀ x ∈ ws.flatMap Written.made, x.Between c c' := by
  induction h with
  | nil hbehind => exact fun x hx => absurd hx List.not_mem_nil
  | @cons c c' d command ws hbehind hrest ih =>
    rw [List.flatMap_cons]
    refine List.forall_mem_append.mpr ⟨fun x hx => ?_, fun x hx => ?_⟩
    · exact (Context.between_labels x (List.mem_of_mem_filter hx)).mono hbehind hrest.notBehind
    · exact (ih x hx).mono (hbehind.trans Context.notBehind_after) (.refl _)

/-- Labels that have been made up are different apart from their owners. -/
theorem nodup_anonymous (h : Succession c ws c') :
    ((ws.flatMap Written.made).map Label.anonymous).Nodup := by
  induction h with
  | nil hbehind => exact List.nodup_nil
  | @cons c c' d command ws hbehind hrest ih =>
    let w : Written := ⟨d, command⟩
    have hfirst : (w.made.map Label.anonymous).Nodup := by
      cases command with
      | arith op =>
        cases op <;> simp [w, Written.made, Context.labels, Label.isNamed, Label.anonymous]
      | label | function | call | push | pop | goto | ifGoto | ret =>
        simp [w, Written.made, Context.labels, Label.isNamed, Label.anonymous]
    have hbetween : ∀ x ∈ w.made.map Label.anonymous, x.Between d (d.after command) :=
      List.forall_mem_map.mpr fun x hx =>
        (Context.between_labels x (List.mem_of_mem_filter hx)).anonymous
    have hbetween' : ∀ x ∈ (ws.flatMap Written.made).map Label.anonymous,
        x.Between (d.after command) c' :=
      List.forall_mem_map.mpr fun x hx => (hrest.between_made x hx).anonymous
    have hnamed :
        (w.made.map Label.anonymous ++ (ws.flatMap Written.made).map Label.anonymous).filter
        Label.isNamed = [] := by
      rw [← List.map_append, ← List.flatMap_cons, List.filter_eq_nil_iff]
      refine List.forall_mem_map.mpr fun x hx => ?_
      obtain ⟨w', -, hx⟩ := List.mem_flatMap.mp hx
      rw [Label.isNamed_anonymous, Written.isNamed_of_mem_made hx]
      exact Bool.false_ne_true
    rw [List.flatMap_cons, List.map_append]
    exact nodup_append_of_between hbetween hbetween' hfirst ih (hnamed ▸ List.nodup_nil)

/-- **Labels that have been made up one after the other are different.** -/
theorem nodup_ownLabels (h : Succession c ws c') : (ws.flatMap Written.ownLabels).Nodup := by
  have htexts : ws.flatMap Written.ownLabels = (ws.flatMap Written.made).map Label.text := by
    rw [List.map_flatMap]
    exact congrArg (ws.flatMap ·) (funext Written.ownLabels_eq)
  have hnamed : ∀ x ∈ ws.flatMap Written.made, x.isNamed = false := by
    intro x hx
    obtain ⟨w, -, hx⟩ := List.mem_flatMap.mp hx
    exact Written.isNamed_of_mem_made hx
  rw [htexts]
  refine List.pairwise_map.mpr ((List.pairwise_map.mp h.nodup_anonymous).imp_of_mem
    fun hx hy hne htext => ?_)
  exact hne (Label.anonymous_eq_of_text (hnamed _ hx) (hnamed _ hy) htext)

end Succession

/-! ### The labels of a run -/

namespace Translator

/-- One translator comes from another one by translating commands, which declare all labels that
come in addition. -/
structure Writes (t : Translator) (ws : List Written) (t' : Translator) : Prop where
  succession : Succession t.context ws t'.context
  labels : labelsOf t'.lines.toList = labelsOf t.lines.toList ++ ws.flatMap fun w =>
    w.ownLabels ++ w.givenLabels

variable {t t' t'' : Translator} {ws ws' : List Written}

theorem Writes.of_lines_eq (hlines : t'.lines = t.lines)
    (hcontext : t.context.NotBehind t'.context) : t.Writes [] t' where
  succession := .nil hcontext
  labels := by rw [hlines, List.flatMap_nil, List.append_nil]

theorem Writes.trans (h : t.Writes ws t') (h' : t'.Writes ws' t'') : t.Writes (ws ++ ws') t'' where
  succession := h.succession.append h'.succession
  labels := by rw [h'.labels, h.labels, List.flatMap_append, List.append_assoc]

theorem labelsOf_commentLines (settings : Settings) (text : String) :
    labelsOf (settings.commentLines text) = [] :=
  Context.filterMap_commentLines (fun _ => rfl) settings text

theorem labelsOf_append (xs ys : List Line) : labelsOf (xs ++ ys) = labelsOf xs ++ labelsOf ys :=
  List.filterMap_append

theorem writes_write_of_ok {command : Command} {block : List Line}
    (h : t.context.block command = .ok block) :
    ∃ t', t.write command = (.ok (), t') ∧ t'.context = t.context.after command ∧
      t.Writes [⟨t.context, command⟩] t' := by
  obtain ⟨t', hwrite, -, hcontext, hlines⟩ := write_of_ok h
  have hblock : labelsOf block = _ := Written.labelsOf_block (w := ⟨t.context, command⟩) h
  refine ⟨t', hwrite, hcontext, .cons (.refl _) (hcontext ▸ .nil (.refl _)), ?_⟩
  rw [hlines, labelsOf_append, labelsOf_append, labelsOf_commentLines, hblock, List.append_nil,
    List.flatMap_singleton]

theorem writes_write_of_error {command : Command} {fault : Fault}
    (h : t.context.block command = .error fault) :
    ∃ t', t.write command = (.error fault, t') ∧ t.Writes [] t' := by
  obtain ⟨t', hwrite, -, hcontext, hlines⟩ := write_of_error h
  refine ⟨t', hwrite, hcontext ▸ .nil (.refl _), ?_⟩
  rw [hlines, labelsOf_append, labelsOf_commentLines, List.flatMap_nil]

theorem writes_writeAll (t : Translator) (ls : List SourceLine) :
    t.Writes (t.context.written (ls.map (·.command))) (t.writeAll ls).2 := by
  induction ls generalizing t with
  | nil => exact .of_lines_eq rfl (.refl _)
  | cons l rest ih =>
    rw [writeAll_cons, List.map_cons, Context.written]
    cases hblock : t.context.block l.command with
    | ok block =>
      obtain ⟨t', hwrite, hcontext, hwrites⟩ := writes_write_of_ok hblock
      rw [hwrite, ← hcontext]
      exact hwrites.trans (ih t')
    | error fault =>
      obtain ⟨t', hwrite, hwrites⟩ := writes_write_of_error hblock
      rw [hwrite]
      exact hwrites

/-- **An operation** translates commands, whether it fails or not. -/
theorem writes_perform (t : Translator) (operation : Operation) :
    t.Writes (t.written operation) (t.perform operation) := by
  cases operation with
  | translateUnit unit source =>
    unfold written perform translateUnit
    dsimp only
    cases readProgram source with
    | error e => exact .of_lines_eq rfl (.refl _)
    | ok program =>
      have hbegin : t.Writes [] (t.beginUnit unit) :=
        .of_lines_eq rfl ⟨Nat.le_refl _, Nat.le_refl _⟩
      exact hbegin.trans (writes_writeAll _ program)
  | beginUnit unit => exact .of_lines_eq rfl ⟨Nat.le_refl _, Nat.le_refl _⟩
  | write command =>
    have hline : (t.writeAll [⟨0, command⟩]).2 = (t.write command).2 := by
      rw [writeAll_cons]
      rcases t.write command with ⟨_ | _, _⟩ <;> rfl
    show t.Writes (t.context.written [command]) (t.write command).2
    rw [← hline]
    exact writes_writeAll t [⟨0, command⟩]

theorem writes_history (t : Translator) (operations : List Operation) :
    t.Writes (t.history operations) (operations.foldl perform t) := by
  induction operations generalizing t with
  | nil => exact .of_lines_eq rfl (.refl _)
  | cons operation rest ih => exact (writes_perform t operation).trans (ih _)

theorem writes_run (settings : Settings) (operations : List Operation) :
    Writes { settings } (runHistory settings operations) (run settings operations) := by
  have hnew : Writes { settings } (if settings.bootstrap then [⟨{}, .call entryPoint 0⟩]
      else []) (new settings) := by
    unfold new
    split
    · refine ⟨.cons (.refl _) (.nil (.refl _)), ?_⟩
      cases settings.comments <;> rfl
    · exact .of_lines_eq rfl (.refl _)
  exact hnew.trans (writes_history _ operations)

/-- **The labels that a run makes up are different**, whatever it is told to do.  Besides these
labels, the lines of the run declare only those of the program. -/
theorem nodup_ownLabels_run (settings : Settings) (operations : List Operation) :
    labelsOf (run settings operations).lines.toList =
        (runHistory settings operations).flatMap (fun w => w.ownLabels ++ w.givenLabels) ∧
      ((runHistory settings operations).flatMap Written.ownLabels).Nodup := by
  have hwrites := writes_run settings operations
  refine ⟨?_, hwrites.succession.nodup_ownLabels⟩
  rw [hwrites.labels]
  rfl

end Translator

end JackToolchain.VM
