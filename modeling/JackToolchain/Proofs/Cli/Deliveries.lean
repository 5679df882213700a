import Mathlib.Data.List.Infix
import JackToolchain.Proofs.Cli.Paths

/-!
# Files that are put into a folder

Outputs go to files in a folder that is there already, so no folder comes or goes, and paths lead
where they have led before (`FileTree.SameFolders`).  A file holds what has been delivered there
last, or what it held before if there was nothing to deliver (`FileTree.read?_deliverAll`); files
where nothing is delivered are as they were (`FileTree.read?_deliverAll_of_ne`).
-/

namespace JackToolchain.Cli.FileTree

variable {t t' t'' : FileTree} {d place other : Place} {n : Name} {p : Path} {bytes : List UInt8}
  {product : Option (List UInt8)}

/-! ### Files and folders -/

/-- Names are proper, and no file is where a folder is. -/
structure Sound (t : FileTree) : Prop where
  proper : ∀ file ∈ t.files, ∀ name ∈ file.1, Name.Proper name
  apart : ∀ file ∈ t.files, t.isFolder file.1 = false

instance (t : FileTree) : Decidable t.Sound :=
  decidable_of_iff ((∀ file ∈ t.files, ∀ name ∈ file.1, Name.Proper name) ∧ ∀ file ∈ t.files,
    t.isFolder file.1 = false) ⟨fun h => ⟨h.1, h.2⟩, fun h => ⟨h.proper, h.apart⟩⟩

theorem mem_of_read? (h : t.read? place = some bytes) : (place, bytes) ∈ t.files := by
  obtain ⟨front, back, hfiles, -⟩ := List.lookup_eq_some_iff.mp h
  rw [hfiles]
  exact List.mem_append_right _ List.mem_cons_self

/-- Where a folder is, there is no file. -/
theorem Sound.read?_of_isFolder (ht : t.Sound) (hd : t.isFolder d = true) : t.read? d = none := by
  rw [Option.eq_none_iff_forall_not_mem]
  intro bytes hbytes
  have hfile := ht.apart _ (mem_of_read? hbytes)
  rw [hd] at hfile
  cases hfile

/-- A name in a folder is the last one of a file's place. -/
theorem exists_of_mem_fileNames (h : n ∈ t.fileNames d) : ∃ bytes, (d ++ [n], bytes) ∈ t.files := by
  obtain ⟨⟨place, bytes⟩, hfile, hname⟩ := List.mem_filterMap.mp h
  refine ⟨bytes, ?_⟩
  unfold nameIn? at hname
  split at hname
  · next hbegins =>
    obtain ⟨rest, rfl⟩ := List.isPrefixOf_iff_prefix.mp hbegins
    rw [List.drop_left] at hname
    split at hname
    · cases hname
      exact hfile
    · cases hname
  · cases hname

theorem Sound.proper_of_mem_fileNames (ht : t.Sound) (h : n ∈ t.fileNames d) : n.Proper := by
  obtain ⟨bytes, hfile⟩ := exists_of_mem_fileNames h
  exact ht.proper _ hfile n (List.mem_append_right _ (List.mem_singleton_self n))

/-- The files in a folder can be read. -/
theorem exists_bytes_of_mem_fileNames (h : n ∈ t.fileNames d) :
    ∃ bytes, t.read? (d ++ [n]) = some bytes := by
  obtain ⟨bytes, hfile⟩ := exists_of_mem_fileNames h
  have hsome : (t.files.lookup (d ++ [n])).isSome = true := by
    rw [List.lookup_isSome_iff]
    exact ⟨_, hfile, beq_self_eq_true _⟩
  exact Option.isSome_iff_exists.mp hsome

/-- What leads to a folder is a folder. -/
theorem isFolder_of_isPrefix (hd : t.isFolder d = true) (h : place <+: d) :
    t.isFolder place = true := by
  unfold isFolder at hd ⊢
  simp only [Bool.or_eq_true, List.isEmpty_iff, List.isPrefixOf_iff_prefix, List.any_eq_true]
    at hd ⊢
  rcases hd with ((rfl | hhome) | ⟨folder, hfolder, hbegins⟩) | ⟨file, hfile, hleads⟩
  · exact .inl (.inl (.inl (List.prefix_nil.mp h)))
  · exact .inl (.inl (.inr (h.trans hhome)))
  · exact .inl (.inr ⟨folder, hfolder, h.trans hbegins⟩)
  · refine .inr ⟨file, hfile, ?_⟩
    simp only [leadsTo, Bool.and_eq_true, List.isPrefixOf_iff_prefix, decide_eq_true_eq] at hleads ⊢
    exact ⟨h.trans hleads.1, Nat.lt_of_le_of_lt h.length_le hleads.2⟩

/-! ### Trees with the same folders -/

/-- The folders of a tree are those of another one. -/
structure SameFolders (t t' : FileTree) : Prop where
  home : t'.home = t.home
  folders : t'.folders = t.folders
  isFolder : ∀ place, t'.isFolder place = t.isFolder place

theorem SameFolders.refl (t : FileTree) : SameFolders t t := ⟨rfl, rfl, fun _ => rfl⟩

theorem SameFolders.trans (h : SameFolders t t') (h' : SameFolders t' t'') : SameFolders t t'' :=
  ⟨h'.home.trans h.home, h'.folders.trans h.folders,
    fun place => (h'.isFolder place).trans (h.isFolder place)⟩

/-- Paths lead where they have led before. -/
theorem SameFolders.resolve (h : SameFolders t t') (p : Path) : t'.resolve p = t.resolve p := by
  have hwalk (place : Place) (pieces : List (List UInt8)) : t'.walk place pieces =
      t.walk place pieces := by
    induction pieces generalizing place with
    | nil => rfl
    | cons piece pieces ih => rw [walk, walk, h.isFolder, ih]
  unfold FileTree.resolve
  split
  · rfl
  · rw [hwalk, h.home]

theorem any_putIn (q : Place → Bool) (place : Place) (bytes : List UInt8)
    (files : List (Place × List UInt8)) :
    (putIn place bytes files).any (fun file => q file.1) =
      (q place || files.any fun file => q file.1) := by
  induction files with
  | nil => rfl
  | cons file files ih =>
    rw [putIn]
    split
    · next heq => rw [List.any_cons, List.any_cons, heq, ← Bool.or_assoc, Bool.or_self]
    · rw [List.any_cons, ih, List.any_cons, Bool.or_left_comm]

/-- To put a file makes folders on the way to it. -/
theorem isFolder_put (t : FileTree) (place other : Place) (bytes : List UInt8) :
    (t.put place bytes).isFolder other = (leadsTo other place || t.isFolder other) := by
  unfold isFolder
  rw [← Bool.or_left_comm, ← any_putIn (leadsTo other)]
  rfl

/-- A file in a folder makes no folder. -/
theorem sameFolders_put (hd : t.isFolder d = true) (n : Name) (bytes : List UInt8) :
    SameFolders t (t.put (d ++ [n]) bytes) := by
  refine ⟨rfl, rfl, fun place => ?_⟩
  rw [isFolder_put]
  cases hleads : leadsTo place (d ++ [n]) with
  | false => exact Bool.false_or _
  | true =>
    -- A place that leads to the file leads to the folder, or is the folder.
    simp only [leadsTo, Bool.and_eq_true, List.isPrefixOf_iff_prefix, decide_eq_true_eq] at hleads
    obtain ⟨hbegins, hlength⟩ := hleads
    rcases List.prefix_concat_iff.mp hbegins with rfl | hplace
    · exact absurd hlength (Nat.lt_irrefl _)
    · rw [isFolder_of_isPrefix hd hplace, Bool.or_true]

/-! ### Deliveries -/

/-- The tree after a product has gone to a file, if there is a product. -/
def deliver (t : FileTree) (place : Place) : Option (List UInt8) → FileTree
  | some bytes => t.put place bytes
  | none => t

theorem read?_deliver_self (t : FileTree) (place : Place) (product : Option (List UInt8)) :
    (t.deliver place product).read? place = product.or (t.read? place) := by
  cases product with
  | none => rfl
  | some bytes => exact read?_put_self t place bytes

theorem read?_deliver_of_ne (h : other ≠ place) (product : Option (List UInt8)) :
    (t.deliver place product).read? other = t.read? other := by
  cases product with
  | none => rfl
  | some bytes => exact read?_put_of_ne t h bytes

theorem sameFolders_deliver (hd : t.isFolder d = true) (n : Name) (product : Option (List UInt8)) :
    SameFolders t (t.deliver (d ++ [n]) product) := by
  cases product with
  | none => exact .refl t
  | some bytes => exact sameFolders_put hd n bytes

section
variable {out : Name → Name} {make : Name → Option (List UInt8)} {ns : List Name}

/-- The tree after the products for names have gone, one after the other, to files in a folder. -/
def deliverAll (t : FileTree) (d : Place) (out : Name → Name) (make : Name → Option (List UInt8)) :
    List Name → FileTree
  | [] => t
  | n :: ns => (t.deliver (d ++ [out n]) (make n)).deliverAll d out make ns

theorem sameFolders_deliverAll (hd : t.isFolder d = true) (out : Name → Name)
    (make : Name → Option (List UInt8)) (ns : List Name) :
    SameFolders t (t.deliverAll d out make ns) := by
  induction ns generalizing t with
  | nil => exact .refl t
  | cons n ns ih =>
    have hfirst := sameFolders_deliver hd (out n) (make n)
    exact hfirst.trans (ih ((hfirst.isFolder d).trans hd))

/-- **Where nothing goes, nothing changes.** -/
theorem read?_deliverAll_of_ne (h : ∀ n ∈ ns, place ≠ d ++ [out n]) :
    (t.deliverAll d out make ns).read? place = t.read? place := by
  induction ns generalizing t with
  | nil => rfl
  | cons n ns ih =>
    obtain ⟨hn, hns⟩ := List.forall_mem_cons.mp h
    exact (ih hns).trans (read?_deliver_of_ne hn _)

/-- **A file holds the last product for the names that share it**, and is as it was if there is
none. -/
theorem read?_deliverAll (t : FileTree) (d : Place) (out : Name → Name)
    (make : Name → Option (List UInt8)) (ns : List Name) (m : Name) :
    (t.deliverAll d out make ns).read? (d ++ [m]) =
      ((ns.filter (out · == m)).filterMap make).getLast?.or (t.read? (d ++ [m])) := by
  induction ns generalizing t with
  | nil => rfl
  | cons n ns ih =>
    rw [deliverAll, ih]
    by_cases hm : out n = m
    · subst hm
      have hfilter : (n :: ns).filter (out · == out n) = n :: ns.filter (out · == out n) :=
        List.filter_cons_of_pos (beq_self_eq_true (out n))
      rw [read?_deliver_self, hfilter, List.filterMap_cons]
      cases make n with
      | none => rfl
      | some bytes =>
        rw [List.getLast?_cons]
        cases ((ns.filter (out · == out n)).filterMap make).getLast? <;> rfl
    · have hplace : d ++ [m] ≠ d ++ [out n] := fun heq => hm (by simpa using heq.symm)
      rw [read?_deliver_of_ne hplace, List.filter_cons_of_neg (by simpa using hm)]

/-- The product for a name that shares its file with no other one. -/
theorem getLast?_of_unique (hn : n ∈ ns) (h : ∀ n' ∈ ns, out n' = out n → n' = n) :
    ((ns.filter (out · == out n)).filterMap make).getLast? = make n := by
  have hmem : n ∈ ns.filter (out · == out n) := List.mem_filter.mpr ⟨hn, beq_self_eq_true _⟩
  have hall : ∀ n' ∈ ns.filter (out · == out n), n' = n := fun n' hn' =>
    h n' (List.mem_filter.mp hn').1 (eq_of_beq (List.mem_filter.mp hn').2)
  have hlength : (ns.filter (out · == out n)).length ≠ 0 := (List.length_pos_of_mem hmem).ne'
  rw [List.eq_replicate_of_mem hall]
  cases hmake : make n with
  | none => rw [List.filterMap_replicate_of_none hmake, List.getLast?_nil]
  | some bytes =>
    rw [List.filterMap_replicate_of_some hmake, List.getLast?_replicate, if_neg hlength]

/-- **Each product is in its own file**, unless files are shared. -/
theorem read?_deliverAll_of_unique (hn : n ∈ ns) (h : ∀ n' ∈ ns, out n' = out n → n' = n) :
    (t.deliverAll d out make ns).read? (d ++ [out n]) = (make n).or (t.read? (d ++ [out n])) := by
  rw [read?_deliverAll, getLast?_of_unique hn h]

end

end JackToolchain.Cli.FileTree
