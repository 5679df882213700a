import JackToolchain.Proofs.Text.Characters
import JackToolchain.Proofs.VM.UnitCode

/-!
# The labels of a translated program

A translator declares four families of labels: functions, the labels inside functions, the two
labels of a comparison, and the place that a call returns to.  The texts of labels are put together
from names and numbers, and different labels have different texts (`Label.text_inj`) as long as
names of functions have a dot in them and no dollar sign, units have no dollar sign either, and
labels inside functions do not begin like those of other families.

Comparisons and calls are numbered, so their labels are all different.  If functions and the labels
inside them are different too, all labels are (`Context.nodup_labelsOf`).
-/

namespace JackToolchain.VM

open Hack Block Text

/-! ### Texts of labels -/

/-- A label that a translator declares. -/
inductive Label where
  /-- The beginning of a function. -/
  | function (name : String)
  /-- A label of the program, inside a function. -/
  | inside (function name : String)
  /-- Where a comparison goes if it holds, and where it ends. -/
  | comparison (unit : String) (number : Nat) (holds : Bool)
  /-- Where a call returns to, inside a function or outside of all. -/
  | returning (function : String) (number : Nat)
deriving DecidableEq

/-- A name that a function may have. -/
structure IsFunctionName (name : String) : Prop where
  dot : '.' ∈ name.toList
  dollar : '$' ∉ name.toList

theorem IsFunctionName.isEmpty_eq_false {name : String} (h : IsFunctionName name) :
    name.isEmpty = false := by
  refine Bool.eq_false_iff.mpr fun hempty => ?_
  have hdot := h.dot
  rw [String.isEmpty_iff.mp hempty] at hdot
  exact absurd hdot (by decide)

namespace Label

/-- The part of a label in front of the dollar sign. -/
def owner : Label → String
  | function name => name
  | inside f _ => f
  | comparison unit _ _ => unit
  | returning f _ => if f.isEmpty then "Bootstrap" else f

/-- The part of a label from the dollar sign on. -/
def tail : Label → String
  | function _ => ""
  | inside _ name => "$" ++ name
  | comparison _ n true => "$CMP_TRUE_" ++ toString n
  | comparison _ n false => "$CMP_END_" ++ toString n
  | returning _ n => "$ret." ++ toString n

/-- The text of a label. -/
def text (x : Label) : String := x.owner ++ x.tail

/-- A label whose names are as they should be. -/
def Proper : Label → Prop
  | function name => IsFunctionName name
  | inside f name => IsFunctionName f ∧ ∀ c ∈ name.toList.head?, c ≠ 'C' ∧ c ≠ 'r'
  | comparison unit _ _ => '$' ∉ unit.toList
  | returning f _ => f = "" ∨ IsFunctionName f

variable {x y : Label}

theorem dollar_notMem_owner (h : x.Proper) : '$' ∉ x.owner.toList := by
  cases x with
  | function name => exact h.dollar
  | inside f name => exact h.1.dollar
  | comparison unit n holds => exact h
  | returning f n =>
    show '$' ∉ (if f.isEmpty then "Bootstrap" else f).toList
    split
    · decide
    · next hne =>
      rcases h with rfl | h
      · exact absurd rfl hne
      · exact h.dollar

theorem head_tail (x : Label) : ∀ c ∈ x.tail.toList.head?, c = '$' := by
  cases x with
  | function name => nofun
  | inside f name => simp [tail]
  | comparison unit n holds => cases holds <;> simp [tail]
  | returning f n => simp [tail]

/-- A text is divided at its first dollar sign in one way. -/
theorem owner_and_tail_of_text (hx : x.Proper) (hy : y.Proper) (h : x.text = y.text) :
    x.owner = y.owner ∧ x.tail = y.tail := by
  have hfront {z : Label} (hz : z.Proper) : ∀ c ∈ z.owner.toList, decide (c ≠ '$') = true := by
    intro c hc
    refine decide_eq_true ?_
    rintro rfl
    exact dollar_notMem_owner hz hc
  have hbehind (z : Label) : ∀ c ∈ z.tail.toList.head?, decide (c ≠ '$') = false := by
    intro c hc
    simpa using z.head_tail c hc
  have hlist := congrArg String.toList h
  unfold text at hlist
  rw [String.toList_append, String.toList_append] at hlist
  constructor
  · have howner := congrArg (List.takeWhile fun c => decide (c ≠ '$')) hlist
    rw [takeWhile_run (hfront hx) (hbehind x), takeWhile_run (hfront hy) (hbehind y)] at howner
    exact String.toList_inj.mp howner
  · have htail := congrArg (List.dropWhile fun c => decide (c ≠ '$')) hlist
    rw [dropWhile_run (hfront hx) (hbehind x), dropWhile_run (hfront hy) (hbehind y)] at htail
    exact String.toList_inj.mp htail

/-- The character behind the dollar sign of a label. -/
def family : Label → Option Char
  | function _ => none
  | inside _ name => name.toList.head?
  | comparison .. => some 'C'
  | returning .. => some 'r'

theorem getElem?_tail (x : Label) : x.tail.toList[1]? = x.family := by
  cases x with
  | function name => rfl
  | inside f name => simp [tail, family, List.head?_eq_getElem?]
  | comparison unit n holds => cases holds <;> simp [tail, family]
  | returning f n => simp [tail, family]

theorem number_inj {front : String} {n k : Nat} (h : front ++ toString n = front ++ toString k) :
    n = k :=
  toString_inj (String.append_right_inj front |>.mp h)

theorem owner_returning {f : String} {n : Nat} (h : IsFunctionName f) : (returning f n).owner = f :=
  if_neg (Bool.eq_false_iff.mp h.isEmpty_eq_false)

/-- **Different labels have different texts.** -/
theorem text_inj (hx : x.Proper) (hy : y.Proper) (h : x.text = y.text) : x = y := by
  obtain ⟨howner, htail⟩ := owner_and_tail_of_text hx hy h
  -- Labels of different families differ in the character behind the dollar sign.
  have hfamily : x.family = y.family := by rw [← getElem?_tail, ← getElem?_tail, htail]
  cases x with
  | function f =>
    cases y with
    | function f' => exact congrArg function howner
    | inside f' name' => simp [tail] at htail
    | comparison | returning => cases hfamily
  | inside f name =>
    cases y with
    | function f' => simp [tail] at htail
    | inside f' name' => rw [show f = f' from howner, String.append_right_inj "$" |>.mp htail]
    | comparison unit' n' holds' => exact absurd rfl (hx.2 'C' hfamily).1
    | returning f' n' => exact absurd rfl (hx.2 'r' hfamily).2
  | comparison unit n holds =>
    cases y with
    | function | returning => cases hfamily
    | inside f' name' => exact absurd rfl (hy.2 'C' hfamily.symm).1
    | comparison unit' n' holds' =>
      have hunit : unit = unit' := howner
      cases holds <;> cases holds'
      · rw [hunit, number_inj htail]
      · simpa [tail] using congrArg String.toList htail
      · simpa [tail] using congrArg String.toList htail
      · rw [hunit, number_inj htail]
  | returning f n =>
    cases y with
    | function | comparison => cases hfamily
    | inside f' name' => exact absurd rfl (hy.2 'r' hfamily.symm).2
    | returning f' n' =>
      -- Outside of all functions the owner has no dot in it, which the name of a function has.
      have hf : f = f' := by
        rcases hx with rfl | hf <;> rcases hy with rfl | hf'
        · rfl
        · rw [owner_returning hf'] at howner
          have hdot : '.' ∈ "Bootstrap".toList := (show "Bootstrap" = f' from howner) ▸ hf'.dot
          exact absurd hdot (by decide)
        · rw [owner_returning hf] at howner
          have hdot : '.' ∈ "Bootstrap".toList := (show f = "Bootstrap" from howner) ▸ hf.dot
          exact absurd hdot (by decide)
        · rwa [owner_returning hf, owner_returning hf'] at howner
      rw [hf, number_inj htail]

/-- Only the label of a function has no dollar sign in it. -/
theorem eq_function_or_dollar_mem_text (x : Label) :
    (∃ f, x = function f) ∨ '$' ∈ x.text.toList := by
  have htail (front behind : String) (hbehind : '$' ∈ behind.toList) : '$' ∈
      (front ++ behind).toList := by
    rw [String.toList_append]
    exact List.mem_append_right _ hbehind
  cases x with
  | function f => exact .inl ⟨f, rfl⟩
  | inside f name => exact .inr (htail _ _ (by simp [tail]))
  | comparison unit n holds => exact .inr (htail _ _ (by cases holds <;> simp [tail]))
  | returning f n => exact .inr (htail _ _ (by simp [tail]))

theorem text_function (f : String) : (function f).text = f := String.append_empty

/-- Every label has a dot or a dollar sign in it. -/
theorem dot_or_dollar_mem_text (h : x.Proper) : '.' ∈ x.text.toList ∨ '$' ∈ x.text.toList := by
  rcases x.eq_function_or_dollar_mem_text with ⟨f, rfl⟩ | hdollar
  · left
    rw [text_function]
    exact h.dot
  · exact .inr hdollar

/-- A label is none of the names that are used otherwise. -/
theorem text_notMem (h : x.Proper) : x.text ∉ "END" :: predefinedNames := by
  have hnames : ∀ name ∈ "END" :: predefinedNames, '.' ∉ name.toList ∧ '$' ∉ name.toList := by
    decide
  intro hmem
  obtain ⟨hdot, hdollar⟩ := hnames _ hmem
  exact (dot_or_dollar_mem_text h).elim hdot hdollar

/-- A label that the program names itself, and that is not numbered. -/
def isNamed : Label → Bool
  | function _ | inside .. => true
  | comparison .. | returning .. => false

/-- A label with a number from the counters of one context up to those of another. -/
def Between (c c' : Context) : Label → Prop
  | comparison _ n _ => c.compares ≤ n ∧ n < c'.compares
  | returning _ n => c.calls ≤ n ∧ n < c'.calls
  | function _ | inside .. => True

end Label

/-! ### Counters -/

namespace Context

variable {c c₁ c₂ : Context} {command : Command} {commands : List Command}

/-- The counters of a context have not gone beyond those of another. -/
structure NotBehind (c c' : Context) : Prop where
  compares : c.compares ≤ c'.compares
  calls : c.calls ≤ c'.calls

theorem NotBehind.refl (c : Context) : c.NotBehind c := ⟨Nat.le_refl _, Nat.le_refl _⟩

theorem NotBehind.trans {c₁ c₂ : Context} (h : c.NotBehind c₁) (h' : c₁.NotBehind c₂) :
    c.NotBehind c₂ :=
  ⟨Nat.le_trans h.compares h'.compares, Nat.le_trans h.calls h'.calls⟩

theorem notBehind_after : c.NotBehind (c.after command) := by
  constructor <;> cases command with
  | arith op => cases op <;> simp [after]
  | label | function | call | push | pop | goto | ifGoto | ret => simp [after]

theorem notBehind_afterAll : c.NotBehind (c.afterAll commands) := by
  induction commands generalizing c with
  | nil => exact .refl c
  | cons command rest ih => exact notBehind_after.trans ih

end Context

theorem Label.Between.mono {x : Label} {c c' d d' : Context} (h : x.Between c c')
    (hc : d.NotBehind c) (hc' : c'.NotBehind d') : x.Between d d' := by
  cases x with
  | comparison unit n holds =>
    exact ⟨Nat.le_trans hc.compares h.1, Nat.lt_of_lt_of_le h.2 hc'.compares⟩
  | returning f n => exact ⟨Nat.le_trans hc.calls h.1, Nat.lt_of_lt_of_le h.2 hc'.calls⟩
  | function | inside => trivial

/-! ### Labels of commands -/

/-- **Texts of labels** are different if the labels are, different from the label at the end of a
program, and not predefined. -/
theorem nodup_texts {xs : List Label} (h : ∀ x ∈ xs, x.Proper) (hxs : xs.Nodup) (endLoop : Bool) :
    (xs.map Label.text ++ if endLoop then ["END"] else []).Nodup ∧
      ∀ name ∈ xs.map Label.text ++ if endLoop then ["END"] else [], name ∉ predefinedNames := by
  have hmap : (xs.map Label.text).Nodup :=
    hxs.map_on fun x hx y hy => Label.text_inj (h x hx) (h y hy)
  have hnew : ∀ name ∈ xs.map Label.text, name ∉ "END" :: predefinedNames :=
    List.forall_mem_map.mpr fun x hx => Label.text_notMem (h x hx)
  have hpredefined : ∀ name ∈ xs.map Label.text, name ∉ predefinedNames := fun name hname hmem =>
    hnew name hname (List.mem_cons_of_mem _ hmem)
  cases endLoop with
  | false =>
    rw [if_neg Bool.false_ne_true, List.append_nil]
    exact ⟨hmap, hpredefined⟩
  | true =>
    rw [if_pos rfl]
    refine ⟨List.nodup_append.mpr ⟨hmap, List.nodup_singleton _, ?_⟩, ?_⟩
    · rintro x hx y hy rfl
      rw [List.mem_singleton.mp hy] at hx
      exact hnew _ hx List.mem_cons_self
    · exact List.forall_mem_append.mpr ⟨hpredefined, List.forall_mem_singleton.mpr (by decide)⟩

/-- Labels of which the second have numbers behind those of the first are different, if the named
ones are. -/
theorem nodup_append_of_between {c c₁ c₂ : Context} {xs ys : List Label}
    (hxs : ∀ x ∈ xs, x.Between c c₁) (hys : ∀ y ∈ ys, y.Between c₁ c₂) (hx : xs.Nodup)
    (hy : ys.Nodup) (hnamed : ((xs ++ ys).filter Label.isNamed).Nodup) : (xs ++ ys).Nodup := by
  refine List.nodup_append.mpr ⟨hx, hy, ?_⟩
  rintro x hxs' y hys' rfl
  have hfirst := hxs x hxs'
  have hsecond := hys x hys'
  cases x with
  | comparison unit n holds => exact absurd hfirst.2 (Nat.not_lt.mpr hsecond.1)
  | returning f n => exact absurd hfirst.2 (Nat.not_lt.mpr hsecond.1)
  | function | inside =>
    rw [List.filter_append] at hnamed
    exact (List.nodup_append.mp hnamed).2.2 _ (List.mem_filter.mpr ⟨hxs', rfl⟩) _
      (List.mem_filter.mpr ⟨hys', rfl⟩) rfl

namespace Context

variable {c : Context} {command : Command} {commands : List Command}

/-- The labels that the block of a command declares. -/
def labels (c : Context) : Command → List Label
  | .arith .eq | .arith .gt | .arith .lt =>
    [.comparison c.unit c.compares true, .comparison c.unit c.compares false]
  | .label name => [.inside c.function name]
  | .function name _ => [.function name]
  | .call _ _ => [.returning c.function c.calls]
  | .arith _ | .push _ _ | .pop _ _ | .goto _ | .ifGoto _ | .ret => []

/-- The labels that commands declare, where the context is `c` in front of them. -/
def labelsOf (c : Context) : List Command → List Label
  | [] => []
  | command :: rest => c.labels command ++ (c.after command).labelsOf rest

theorem labelsOf_append (xs ys : List Command) :
    c.labelsOf (xs ++ ys) = c.labelsOf xs ++ (c.afterAll xs).labelsOf ys := by
  induction xs generalizing c with
  | nil => rfl
  | cons command rest ih =>
    rw [List.cons_append, labelsOf, labelsOf, ih, List.append_assoc]
    rfl

theorem between_labels : ∀ x ∈ c.labels command, x.Between c (c.after command) := by
  cases command with
  | arith op => cases op <;> simp [labels, Label.Between, after]
  | label | function | call => simp [labels, Label.Between, after]
  | push | pop | goto | ifGoto | ret => exact fun x hx => absurd hx List.not_mem_nil

theorem nodup_labels : (c.labels command).Nodup := by
  cases command with
  | arith op => cases op <;> simp [labels]
  | label | function | call => exact List.nodup_singleton _
  | push | pop | goto | ifGoto | ret => exact List.nodup_nil

theorem between_labelsOf : ∀ x ∈ c.labelsOf commands, x.Between c (c.afterAll commands) := by
  induction commands generalizing c with
  | nil => exact fun x hx => absurd hx List.not_mem_nil
  | cons command rest ih =>
    intro x hx
    have hafter : (c.after command).NotBehind ((c.after command).afterAll rest) :=
      notBehind_afterAll
    rcases List.mem_append.mp hx with hx | hx
    · exact (between_labels x hx).mono (.refl c) hafter
    · exact (ih x hx).mono notBehind_after (.refl _)

/-- **The labels of commands are different** if those are that the commands name themselves. -/
theorem nodup_labelsOf (h : ((c.labelsOf commands).filter Label.isNamed).Nodup) :
    (c.labelsOf commands).Nodup := by
  induction commands generalizing c with
  | nil => exact List.nodup_nil
  | cons command rest ih =>
    have hrest : (((c.after command).labelsOf rest).filter Label.isNamed).Nodup := by
      rw [labelsOf, List.filter_append] at h
      exact (List.nodup_append.mp h).2.1
    exact nodup_append_of_between between_labels between_labelsOf nodup_labels (ih hrest) h

/-- Inside a function, a label has the name of the function in front of it. -/
theorem scopedLabel_eq_text (h : IsFunctionName c.function) (name : String) :
    c.scopedLabel name = (Label.inside c.function name).text := by
  rw [scopedLabel, h.isEmpty_eq_false, if_neg Bool.false_ne_true, Label.text,
    Label.owner, Label.tail, String.append_assoc]

/-- The labels of a block. -/
theorem labels_of_block {block : List Line} (hproper : ∀ x ∈ c.labels command, x.Proper)
    (h : c.block command = .ok block) :
    block.filterMap Line.label? = (c.labels command).map Label.text := by
  cases command with
  | push segment index =>
    obtain ⟨access, -, hlines⟩ := access_of_pushBlock h
    cases access <;> cases hlines <;> rfl
  | pop segment index =>
    obtain ⟨access, -, hlines⟩ := access_of_popBlock h
    cases access <;> cases hlines <;> rfl
  | arith op =>
    have hcompare (j : Jump) : (c.compareBlock j).filterMap Line.label? =
        [c.trueLabel, c.endLabel] := rfl
    have htexts : [c.trueLabel, c.endLabel] =
        [(Label.comparison c.unit c.compares true).text,
        (Label.comparison c.unit c.compares false).text] := by
      simp only [trueLabel, endLabel, Label.text, Label.owner, Label.tail, String.append_assoc]
    cases h
    cases op with
    | eq | gt | lt => exact (hcompare _).trans htexts
    | add | sub | neg | and | or | not => rfl
  | label name =>
    cases h
    have htext : c.scopedLabel name = (Label.inside c.function name).text :=
      scopedLabel_eq_text (hproper _ (List.mem_singleton_self _)).1 name
    exact congrArg (fun text => [text]) htext
  | function name locals =>
    cases h
    have hzeros := filterMap_pushZeros (f := Line.label?) rfl locals.toNat
    have htext : name = (Label.function name).text := (Label.text_function name).symm
    show name :: (List.replicate locals.toNat pushZero).flatten.filterMap Line.label? =
      [(Label.function name).text]
    rw [hzeros, ← htext]
  | call name args =>
    cases h
    have htext : c.returnLabel = (Label.returning c.function c.calls).text := by
      rw [returnLabel, Label.text, Label.owner, Label.tail, String.append_assoc]
    exact congrArg (fun text => [text]) htext
  | goto | ifGoto | ret =>
    cases h
    rfl

/-- **The labels of commands.** -/
theorem labels_of_code {settings : Settings} (h : ∀ c ∈ commands, c.Translatable)
    (hproper : ∀ x ∈ c.labelsOf commands, x.Proper) :
    (c.code settings commands).filterMap Line.label? = (c.labelsOf commands).map Label.text := by
  induction commands generalizing c with
  | nil => rfl
  | cons command rest ih =>
    obtain ⟨hcommand, hrest⟩ := List.forall_mem_cons.mp h
    obtain ⟨hfirst, hothers⟩ := List.forall_mem_append.mp hproper
    obtain ⟨block, hblock⟩ := exists_block (c := c) hcommand
    rw [filterMap_code_cons (fun _ => rfl) hblock, labels_of_block hfirst hblock,
      ih hrest hothers, labelsOf, List.map_append]

end Context

end JackToolchain.VM
