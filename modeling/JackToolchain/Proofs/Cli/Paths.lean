import Mathlib.Data.List.Infix
import Mathlib.Data.List.TakeWhile
import JackToolchain.Cli.FileTree
import JackToolchain.Proofs.Text.Utf8

/-!
# Where paths lead

A path that leads to a folder, with a proper name joined to it, leads to that name in the folder
(`FileTree.resolve_join`).  Output files are named after source files by their texts alone; what is
shown here is that they end up in the same folder, whatever the path of the folder looks like: with
slashes at its end or without, with pieces that stay where they are, or with pieces that leave a
folder.
-/

namespace JackToolchain.Cli

variable {bs piece : List UInt8} {p : Path} {n n' : Name} {t : FileTree} {d place : Place}

/-! ### Names -/

/-- A name that something in a folder can have. -/
structure Name.Proper (n : Name) : Prop where
  noSlash : slash ∉ n
  not_stays : Path.stays n = false
  not_leaves : n ≠ [dot, dot]

instance (n : Name) : Decidable n.Proper :=
  decidable_of_iff (slash ∉ n ∧ Path.stays n = false ∧ n ≠ [dot, dot])
    ⟨fun h => ⟨h.1, h.2.1, h.2.2⟩, fun h => ⟨h.noSlash, h.not_stays, h.not_leaves⟩⟩

/-- A name that does not end in a dot is proper. -/
theorem Name.proper_of_getLast? {b : UInt8} (hslash : slash ∉ n) (hlast : n.getLast? = some b)
    (hb : b ≠ dot) : n.Proper where
  noSlash := hslash
  not_stays := by
    cases hstays : Path.stays n with
    | false => rfl
    | true =>
      rcases Bool.or_eq_true_iff.mp hstays with hempty | hdot
      · rw [List.isEmpty_iff.mp hempty] at hlast
        cases hlast
      · rw [eq_of_beq hdot] at hlast
        exact absurd (Option.some.inj hlast).symm hb
  not_leaves := by
    rintro rfl
    exact hb (Option.some.inj hlast).symm

/-- A name is split at its last dot, unless nothing stands in front of it. -/
theorem Name.split?_append (before : List UInt8) {behind : List UInt8} (h : dot ∉ behind) :
    split? (before ++ dot :: behind) = if before.isEmpty then none else some (before, behind) := by
  have hbehind : ((before ++ dot :: behind).reverse.takeWhile (· != dot)).reverse = behind := by
    have hreverse : ∀ b ∈ behind.reverse, (b != dot) = true := fun b hb =>
      bne_iff_ne.mpr fun heq => h (heq ▸ List.mem_reverse.mp hb)
    rw [List.reverse_append, List.reverse_cons, List.append_assoc,
      List.takeWhile_append_of_pos hreverse]
    simp
  have hbefore : (before ++ dot :: behind).take
      ((before ++ dot :: behind).length - behind.length - 1) = before := by
    have hlength : (before ++ dot :: behind).length - behind.length - 1 = before.length := by
      rw [List.length_append, List.length_cons]
      omega
    rw [hlength, List.take_left]
  unfold split?
  dsimp only
  rw [hbehind, hbefore]

theorem Name.split?_of_noDot (h : dot ∉ n) : split? n = none := by
  have hall : ∀ b ∈ n.reverse, (b != dot) = true := fun b hb =>
    bne_iff_ne.mpr fun heq => h (heq ▸ List.mem_reverse.mp hb)
  unfold split?
  dsimp only
  rw [List.takeWhile_eq_self_iff.mpr hall, List.reverse_reverse, Nat.sub_self]
  rfl

/-- A name with an extension is its stem, a dot and the extension. -/
theorem Name.eq_stem_append {extension : List UInt8} (h : n.extension? = some extension) :
    n = n.stem ++ dot :: extension := by
  obtain ⟨⟨before, behind⟩, hsplit, rfl⟩ := Option.map_eq_some_iff.mp h
  have hstem : n.stem = before := by
    unfold stem
    rw [hsplit]
  by_cases hdot : dot ∈ n
  · obtain ⟨tail, front, hreverse, htail⟩ := List.eq_append_cons_of_mem (List.mem_reverse.mpr hdot)
    obtain rfl : n = front.reverse ++ dot :: tail.reverse := by
      rw [← List.reverse_reverse n, hreverse, List.reverse_append, List.reverse_cons,
        List.append_assoc]
      rfl
    rw [split?_append _ fun hmem => htail (List.mem_reverse.mp hmem)] at hsplit
    split at hsplit
    · cases hsplit
    · cases hsplit
      rw [hstem]
  · rw [split?_of_noDot hdot] at hsplit
    cases hsplit

/-- The bytes of a text have a slash only if the text has one. -/
theorem Name.slash_notMem_ofText {text : String} (h : '/' ∉ text.toList) :
    slash ∉ Name.ofText text := by
  intro hmem
  obtain ⟨c, hc, hslash⟩ := Text.Utf8.exists_of_mem_encode hmem (by decide)
  obtain rfl : c = '/' := Char.toNat_inj.mp hslash
  exact h hc

/-- The text of a name has a slash only if the name has one. -/
theorem Name.slash_notMem_text (h : slash ∉ n) : '/' ∉ n.text.toList := fun hmem =>
  h (Text.Utf8.mem_of_mem_decodeLossy (by decide) (by decide) hmem)

theorem Name.noSlash_stem {extension : Name} (hn : n.Proper) (h : n.extension? = some extension) :
    slash ∉ n.stem := by
  intro hmem
  have hslash := hn.noSlash
  rw [eq_stem_append h] at hslash
  exact hslash (List.mem_append_left _ hmem)

/-- A name whose last byte is another one than that of an extension does not have the extension. -/
theorem Name.ne_of_getLast? {extension : Name} {b : UInt8} (h : n'.extension? = some extension)
    (hlast : n.getLast? = some b) (hb : (dot :: extension).getLast? ≠ some b) : n ≠ n' := by
  rintro rfl
  rw [eq_stem_append h, List.getLast?_append, List.getLast?_cons, Option.some_or] at hlast
  exact hb (List.getLast?_cons.trans hlast)

section
variable {old : Name} {extension : String} {b : UInt8}

theorem Name.getLast?_withExtension (n : Name) (hlast : (ofText extension).getLast? = some b) :
    (n.withExtension extension).getLast? = some b := by
  unfold withExtension
  rw [List.getLast?_append, List.getLast?_cons, hlast]
  rfl

theorem Name.noSlash_withExtension (hn : n.Proper) (h : n.extension? = some old)
    (hslash : slash ∉ ofText extension) : slash ∉ n.withExtension extension := by
  refine List.not_mem_append (noSlash_stem hn h) ?_
  rw [List.mem_cons, not_or]
  exact ⟨by decide, hslash⟩

theorem Name.proper_withExtension (hn : n.Proper) (h : n.extension? = some old)
    (hslash : slash ∉ ofText extension) (hlast : (ofText extension).getLast? = some b)
    (hb : b ≠ dot) : (n.withExtension extension).Proper :=
  proper_of_getLast? (noSlash_withExtension hn h hslash) (getLast?_withExtension n hlast) hb

/-- Names with the same extension have different stems. -/
theorem Name.eq_of_stem_eq (h : n.extension? = some old) (h' : n'.extension? = some old)
    (hstem : n.stem = n'.stem) : n = n' := by
  rw [eq_stem_append h, eq_stem_append h', hstem]

theorem Name.withExtension_inj (h : n.extension? = some old) (h' : n'.extension? = some old)
    (heq : n.withExtension extension = n'.withExtension extension) : n = n' :=
  eq_of_stem_eq h h' (List.append_cancel_right heq)

end

/-! ### Names that are texts -/

/-- A name whose bytes are a text. -/
def Name.IsText (n : Name) : Prop := ∃ text, n = ofText text

theorem Name.text_ofText (text : String) : (ofText text).text = text :=
  Text.Utf8.decodeLossy_encode text

/-- The stem of a text is a text. -/
theorem Name.IsText.stem {extension : Name} (hn : n.IsText) (h : n.extension? = some extension) :
    n.stem.IsText := by
  obtain ⟨text, rfl⟩ := hn
  exact Text.Utf8.exists_of_encode_eq (eq_stem_append h) (by decide)

/-- **Names that are texts are told apart by their texts.** -/
theorem Name.IsText.text_inj (hn : n.IsText) (hn' : n'.IsText) (h : n.text = n'.text) : n = n' := by
  obtain ⟨text, rfl⟩ := hn
  obtain ⟨text', rfl⟩ := hn'
  rw [text_ofText, text_ofText] at h
  rw [h]

namespace Path

/-! ### Pieces -/

theorem split_of_noSlash (h : slash ∉ piece) : split piece = [piece] := by
  induction piece with
  | nil => rfl
  | cons b piece ih =>
    rw [List.mem_cons, not_or] at h
    rw [split, if_neg (Ne.symm h.1), ih h.2]

theorem split_ne_nil (bs : List UInt8) : split bs ≠ [] := by
  cases bs with
  | nil => exact List.cons_ne_nil _ _
  | cons b bs =>
    unfold split
    split
    · exact List.cons_ne_nil _ _
    · split <;> exact List.cons_ne_nil _ _

/-- What stands behind the last slash is the last piece. -/
theorem split_concat (bs : List UInt8) (h : slash ∉ piece) :
    split (bs ++ slash :: piece) = split bs ++ [piece] := by
  induction bs with
  | nil =>
    show [] :: split piece = [[], piece]
    rw [split_of_noSlash h]
  | cons b bs ih =>
    rw [List.cons_append, split, split, ih]
    by_cases hb : b = slash
    · rw [if_pos hb, if_pos hb]
      rfl
    · rw [if_neg hb, if_neg hb]
      cases hsplit : split bs with
      | nil => exact absurd hsplit (split_ne_nil bs)
      | cons first pieces => rfl

/-! ### Joining a name -/

/-- A path with a slash at its end. -/
def slashed (p : Path) : List UInt8 :=
  if p.bytes.getLast? = some slash then p.bytes else p.bytes ++ [slash]

theorem join_eq (h : p.bytes ≠ []) (n : Name) : p.join n = ⟨p.slashed ++ n⟩ := by
  unfold join slashed
  split
  · next hlast => exact absurd (List.getLast?_eq_none_iff.mp hlast) h
  · next b hlast =>
    rw [hlast]
    by_cases hb : b = slash
    · rw [if_pos hb, if_pos (congrArg some hb)]
    · rw [if_neg hb, if_neg (mt Option.some_inj.mp hb), List.append_assoc]
      rfl

theorem exists_slashed (p : Path) : ∃ front, p.slashed = front ++ [slash] := by
  unfold slashed
  split
  · next hlast =>
    obtain ⟨front, hfront⟩ := List.getLast?_eq_some_iff.mp hlast
    exact ⟨front, hfront⟩
  · exact ⟨p.bytes, rfl⟩

theorem folderPart_join (h : p.bytes ≠ []) (hn : slash ∉ n) :
    (p.join n).folderPart = p.slashed := by
  obtain ⟨front, hfront⟩ := p.exists_slashed
  have hreverse : ∀ b ∈ n.reverse, (b != slash) = true := fun b hb =>
    bne_iff_ne.mpr fun heq => hn (heq ▸ List.mem_reverse.mp hb)
  rw [join_eq h, folderPart, hfront, List.reverse_append, List.dropWhile_append_of_pos hreverse,
    List.reverse_append]
  simp

theorem lastPart_join (h : p.bytes ≠ []) (hn : slash ∉ n) : (p.join n).lastPart = n := by
  obtain ⟨front, hfront⟩ := p.exists_slashed
  have hreverse : ∀ b ∈ n.reverse, (b != slash) = true := fun b hb =>
    bne_iff_ne.mpr fun heq => hn (heq ▸ List.mem_reverse.mp hb)
  rw [join_eq h, lastPart, hfront, List.reverse_append, List.takeWhile_append_of_pos hreverse,
    List.reverse_append]
  simp

/-- Another extension in the same folder. -/
theorem withExtension_join (h : p.bytes ≠ []) (hn : slash ∉ n) (extension : String) :
    (p.join n).withExtension extension = p.join (n.withExtension extension) := by
  rw [withExtension, folderPart_join h hn, lastPart_join h hn, join_eq h]

theorem pieces_join (h : p.bytes ≠ []) (hn : slash ∉ n) :
    ∃ front, (p.join n).pieces = front ++ [n] := by
  obtain ⟨front, hfront⟩ := p.exists_slashed
  refine ⟨split front, ?_⟩
  rw [join_eq h, pieces, hfront, List.append_assoc]
  exact split_concat front hn

theorem name?_join (h : p.bytes ≠ []) (hn : n.Proper) : (p.join n).name? = some n := by
  obtain ⟨front, hfront⟩ := pieces_join h hn.noSlash
  unfold name?
  rw [hfront, List.filter_append, List.filter_cons_of_pos (by rw [hn.not_stays]; rfl),
    List.filter_nil, List.getLast?_append]
  exact if_neg (by simpa using hn.not_leaves)

theorem unitName_join (h : p.bytes ≠ []) (hn : n.Proper) : (p.join n).unitName = n.stem.text := by
  rw [unitName, name?_join h hn]

end Path

/-! ### Resolving paths -/

namespace FileTree

/-- Where the way of a path begins. -/
def origin (t : FileTree) (bs : List UInt8) : Place := if bs.head? = some slash then [] else t.home

theorem resolve_eq (t : FileTree) (h : bs ≠ []) :
    t.resolve ⟨bs⟩ = t.walk (t.origin bs) (Path.split bs) := by
  cases bs with
  | nil => exact absurd rfl h
  | cons b bs =>
    unfold origin
    show t.walk (if b = slash then [] else t.home) _ = t.walk (if some b = some slash then []
      else t.home) _
    by_cases hb : b = slash
    · rw [if_pos hb, if_pos (congrArg some hb)]
      rfl
    · rw [if_neg hb, if_neg (mt Option.some_inj.mp hb)]
      rfl

theorem bytes_ne_nil_of_resolve (h : t.resolve p = some d) : p.bytes ≠ [] := by
  intro hnil
  unfold resolve at h
  rw [hnil] at h
  cases h

theorem walk_concat (t : FileTree) (place : Place) (pieces : List (List UInt8))
    (piece : List UInt8) : t.walk place (pieces ++ [piece]) =
      (t.walk place pieces).bind fun d => if t.isFolder d then some (step d piece) else none := by
  induction pieces generalizing place with
  | nil => rfl
  | cons first pieces ih =>
    rw [List.cons_append, walk, walk]
    split
    · exact ih _
    · rfl

/-- Where the part of a path leads that stands in front of a slash.  Nothing in front of it is the
root. -/
def lead (t : FileTree) (bs : List UInt8) : Option Place :=
  t.walk (t.origin (bs ++ [slash])) (Path.split bs)

theorem lead_eq_resolve (t : FileTree) (h : bs ≠ []) : t.lead bs = t.resolve ⟨bs⟩ := by
  unfold lead
  rw [resolve_eq t h, origin, List.head?_append_of_ne_nil _ h, ← origin]

/-- The part in front of the last slash, and what the last piece does. -/
theorem resolve_concat (t : FileTree) (bs : List UInt8) (hpiece : slash ∉ piece) :
    t.resolve ⟨bs ++ slash :: piece⟩ =
    (t.lead bs).bind fun d => if t.isFolder d then some (step d piece) else none := by
  have horigin : t.origin (bs ++ slash :: piece) = t.origin (bs ++ [slash]) := by
    unfold origin
    cases bs <;> rfl
  rw [resolve_eq t (List.append_ne_nil_of_right_ne_nil bs (List.cons_ne_nil _ _)),
    Path.split_concat bs hpiece, horigin, walk_concat]
  rfl

theorem step_of_stays (h : Path.stays piece = true) (d : Place) : step d piece = d := if_pos h

theorem step_of_proper (h : n.Proper) (d : Place) : step d n = d ++ [n] := by
  unfold step
  rw [if_neg (by rw [h.not_stays]; exact Bool.false_ne_true), if_neg (by simpa using h.not_leaves)]

/-- A piece that stays does not matter at the end of a path to a folder. -/
theorem resolve_concat_of_stays (hslash : slash ∉ piece) (hstays : Path.stays piece = true)
    (hd : t.isFolder d = true) :
    t.resolve ⟨bs ++ slash :: piece⟩ = some d ↔ t.lead bs = some d := by
  rw [resolve_concat t bs hslash]
  constructor
  · intro hresolve
    obtain ⟨d', hd', hstep⟩ := Option.bind_eq_some_iff.mp hresolve
    split at hstep
    · rwa [step_of_stays hstays, ← hd'] at hstep
    · cases hstep
  · intro hlead
    rw [hlead, Option.bind_some, if_pos hd, step_of_stays hstays]

/-- A slash at the end of a path to a folder does not matter. -/
theorem resolve_slashed (h : t.resolve p = some d) (hd : t.isFolder d = true) :
    t.resolve ⟨p.slashed⟩ = some d := by
  unfold Path.slashed
  split
  · exact h
  · refine (resolve_concat_of_stays List.not_mem_nil rfl hd).mpr ?_
    rwa [lead_eq_resolve t (bytes_ne_nil_of_resolve h)]

/-- **A name in a folder.** -/
theorem resolve_join (h : t.resolve p = some d) (hd : t.isFolder d = true) (hn : n.Proper) :
    t.resolve (p.join n) = some (d ++ [n]) := by
  have hslashed := resolve_slashed h hd
  obtain ⟨front, hfront⟩ := p.exists_slashed
  rw [hfront, resolve_concat_of_stays List.not_mem_nil rfl hd] at hslashed
  rw [Path.join_eq (bytes_ne_nil_of_resolve h), hfront, List.append_assoc]
  refine (resolve_concat t front hn.noSlash).trans ?_
  rw [hslashed, Option.bind_some, if_pos hd, step_of_proper hn]

/-- To drop pieces that stay from the end of a path to a folder leaves its place. -/
theorem resolve_dropStaying (hd : t.isFolder d = true) (h : t.resolve ⟨bs.reverse⟩ = some d) :
    t.resolve ⟨(Path.dropStaying bs).reverse⟩ = some d := by
  fun_induction Path.dropStaying bs with
  | case1 => exact h
  | case2 b bs hdrop ih =>
    refine ih ?_
    rcases hdrop with ⟨rfl, hbs⟩ | ⟨rfl, hslash⟩
    · rw [List.reverse_cons, resolve_concat_of_stays List.not_mem_nil rfl hd] at h
      rwa [lead_eq_resolve t (by simpa using hbs)] at h
    · obtain ⟨bs, rfl⟩ := List.head?_eq_some_iff.mp hslash
      rw [List.reverse_cons, List.reverse_cons, List.append_assoc] at h
      have hlead : t.lead bs.reverse = some d := (resolve_concat_of_stays (by decide) rfl hd).mp h
      rw [List.reverse_cons]
      exact (resolve_concat_of_stays List.not_mem_nil rfl hd).mpr hlead
  | case3 => exact h

/-- **Another name in the same folder.** -/
theorem resolve_withName_join (h : t.resolve p = some d) (hd : t.isFolder d = true) (hn : slash ∉ n)
    (hn' : n'.Proper) : t.resolve ((p.join n).withName n') = some (d ++ [n']) := by
  refine resolve_join ?_ hd hn'
  unfold Path.folder
  refine resolve_dropStaying hd ?_
  rw [List.reverse_reverse, Path.folderPart_join (bytes_ne_nil_of_resolve h) hn]
  exact resolve_slashed h hd

end FileTree

end JackToolchain.Cli
