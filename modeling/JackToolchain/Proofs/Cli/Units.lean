import JackToolchain.Proofs.Cli.Effects

/-!
# Units one after the other

A command handles the units of a folder in name order.  What it makes of a unit is given by a
function `make` of its name: a product, or nothing if the unit is in error, or a cause to stop
everything.  An action does what `make` says if it does so on every tree that has the same folders
and the unit as it is (`Handles`).  Since nothing that is written is a unit, it then does so for one
unit after the other, and what has been written in the end is what `make` says of the units up to
the first one that stops everything (`Ends.countFailures`).
-/

namespace JackToolchain.Cli

variable {t t' : FileTree} {p : Path} {d : Place} {n : Name} {bytes : List UInt8}
  {limit : Option Log.Level}

/-- What is made of each unit: something to write, or nothing if the unit is in error, or a cause to
stop. -/
abbrev Recipe : Type := Name → Except Abort (Option (List UInt8))

/-! ### Units one after the other -/

section
variable {handle : Path → Action (StateM Session) Bool} {out : Name → Name} {make : Recipe}
  {ns : List Name}

/-- What there is to write for a unit. -/
def product? (make : Recipe) (n : Name) : Option (List UInt8) :=
  match make n with
  | .ok product => product
  | .error _ => none

/-- The units in front of the first one that stops everything. -/
def reached (make : Recipe) (ns : List Name) : List Name :=
  ns.takeWhile fun n => (make n).toBool

/-- The number of units without a product, or the cause if one of them stops everything. -/
def tally (make : Recipe) : List Name → Except Abort Nat
  | [] => .ok 0
  | n :: ns =>
    match make n with
    | .error cause => .error cause
    | .ok product => (tally make ns).map ((if product.isNone then 1 else 0) + ·)

/-- An action does with a unit in a folder what `make` says, on every tree with the same folders
that has the unit as it is. -/
def Handles (handle : Path → Action (StateM Session) Bool) (t : FileTree) (p : Path) (d : Place)
    (out : Name → Name) (make : Recipe) (n : Name) : Prop :=
  ∀ t', t.SameFolders t' → t'.read? (d ++ [n]) = t.read? (d ++ [n]) →
    Ends (handle (p.join n)) t' ((make n).map Option.isNone)
    (t'.deliver (d ++ [out n]) (product? make n))

/-- **Units are handled one after the other**, and what is written for one of them changes no other
one. -/
theorem Ends.countFailures (hd : t.isFolder d = true)
    (hhandle : ∀ n ∈ ns, Handles handle t p d out make n) (hapart : ∀ n ∈ ns, ∀ n' ∈ ns, out n ≠ n')
    (hfolders : t.SameFolders t') (hunits : ∀ n ∈ ns, t'.read? (d ++ [n]) = t.read? (d ++ [n])) :
    Ends (countFailures handle (ns.map p.join)) t' (tally make ns)
      (t'.deliverAll d out (product? make) (reached make ns)) := by
  induction ns generalizing t' with
  | nil => exact .pure 0 t'
  | cons n ns ih =>
    have hfirst := hhandle n List.mem_cons_self t' hfolders (hunits n List.mem_cons_self)
    rw [List.map_cons, Cli.countFailures, tally, reached, List.takeWhile_cons]
    cases hmake : make n with
    | error cause =>
      rw [hmake, product?, hmake] at hfirst
      exact hfirst.bind_error
    | ok product =>
      rw [hmake] at hfirst
      refine hfirst.bind ?_
      set t'' := t'.deliver (d ++ [out n]) (product? make n) with ht''
      have hfolders' : t.SameFolders t'' :=
        hfolders.trans (FileTree.sameFolders_deliver ((hfolders.isFolder d).trans hd) (out n) _)
      have hunits' : ∀ n' ∈ ns, t''.read? (d ++ [n']) = t.read? (d ++ [n']) := by
        intro n' hn'
        rw [ht'', FileTree.read?_deliver_of_ne, hunits n' (List.mem_cons_of_mem n hn')]
        intro heq
        have hname : n' = out n := by simpa using heq
        exact hapart n List.mem_cons_self n' (List.mem_cons_of_mem n hn') hname.symm
      have hrest := ih (fun n' hn' => hhandle n' (List.mem_cons_of_mem n hn'))
        (fun n' hn' m hm => hapart n' (List.mem_cons_of_mem n hn') m (List.mem_cons_of_mem n hm))
        hfolders' hunits'
      cases htally : tally make ns with
      | error cause =>
        rw [htally] at hrest
        exact hrest.bind_error
      | ok rest =>
        rw [htally] at hrest
        exact hrest.bind (.pure _ _)

theorem tally_of_forall (h : ∀ n ∈ ns, (make n).toBool = true) :
    tally make ns = .ok (ns.countP fun n => (product? make n).isNone) := by
  induction ns with
  | nil => rfl
  | cons n ns ih =>
    obtain ⟨hn, hns⟩ := List.forall_mem_cons.mp h
    rw [tally, ih hns, List.countP_cons, product?]
    cases hmake : make n with
    | error cause =>
      rw [hmake] at hn
      cases hn
    | ok product => exact congrArg Except.ok (Nat.add_comm _ _)

theorem exists_tally_eq_error (h : ¬∀ n ∈ ns, (make n).toBool = true) :
    ∃ cause, tally make ns = .error cause := by
  induction ns with
  | nil => exact absurd (List.forall_mem_nil _) h
  | cons n ns ih =>
    rw [tally]
    cases hmake : make n with
    | error cause => exact ⟨cause, rfl⟩
    | ok product =>
      obtain ⟨cause, hcause⟩ := ih fun hns => h (List.forall_mem_cons.mpr ⟨by rw [hmake]; rfl, hns⟩)
      exact ⟨cause, by rw [hcause]; rfl⟩

/-- How a command ends that has counted the units in error. -/
def Outcome.ofTally : Except Abort Nat → Outcome
  | .error cause => .aborted cause
  | .ok 0 => .success
  | .ok (count + 1) => .unitsFailed (count + 1)

/-- **The exit code tells whether a unit has stopped everything, or else whether one is in
error.** -/
theorem exitCode_ofTally (make : Recipe) (ns : List Name) :
    (Outcome.ofTally (tally make ns)).exitCode =
      if ∀ n ∈ ns, (make n).toBool = true then if ∀ n ∈ ns, (product? make n).isSome = true then 0
      else 65 else 1 := by
  by_cases hall : ∀ n ∈ ns, (make n).toBool = true
  · rw [if_pos hall, tally_of_forall hall]
    have hzero : ns.countP (fun n => (product? make n).isNone) = 0 ↔ ∀ n ∈ ns,
        (product? make n).isSome = true := by
      simp [List.countP_eq_zero, Option.isSome_iff_ne_none]
    cases hcount : ns.countP fun n => (product? make n).isNone with
    | zero =>
      rw [if_pos (hzero.mp hcount)]
      rfl
    | succ count =>
      rw [if_neg fun h => Nat.noConfusion ((hzero.mpr h).symm.trans hcount)]
      rfl
  · obtain ⟨cause, hcause⟩ := exists_tally_eq_error hall
    rw [if_neg hall, hcause]
    rfl

end

/-! ### Running a command on a folder -/

/-- A path leads to a folder of a sound tree, and there is no configuration in the working
directory. -/
structure Setting (t : FileTree) (p : Path) (d : Place) : Prop where
  sound : t.Sound
  resolve : t.resolve p = some d
  isFolder : t.isFolder d = true
  unconfigured : t.isFile (t.home ++ [.ofText Configuration.fileName]) = false

instance (t : FileTree) (p : Path) (d : Place) : Decidable (Setting t p d) :=
  decidable_of_iff (t.Sound ∧ t.resolve p = some d ∧ t.isFolder d = true ∧
      t.isFile (t.home ++ [.ofText Configuration.fileName]) = false)
    ⟨fun h => ⟨h.1, h.2.1, h.2.2.1, h.2.2.2⟩,
    fun h => ⟨h.sound, h.resolve, h.isFolder, h.unconfigured⟩⟩

theorem FileTree.resolve_configuration (t : FileTree) :
    t.resolve (.ofText Configuration.fileName) =
      some (t.home ++ [.ofText Configuration.fileName]) := by
  have hhome : t.isFolder t.home = true := by
    unfold isFolder
    rw [List.isPrefixOf_iff_prefix.mpr (List.prefix_refl t.home), Bool.or_true, Bool.true_or,
      Bool.true_or]
  show t.walk t.home [Name.ofText Configuration.fileName] = _
  rw [walk, if_pos hhome]
  rfl

theorem Setting.not_isFile (hs : Setting t p d) : t.isFile d = false := by
  rw [FileTree.isFile, hs.sound.read?_of_isFolder hs.isFolder]
  rfl

section
variable {words : List String} {r : Request} {result : Except Abort Nat} {extension : String}
  {out : Name → Name} {make : Recipe}

theorem Leads.run_of_perform (hwords : Request.ofWords? words = some r)
    (hp : t.resolve r.path = some d) (hd : t.isFolder d = true)
    (h : Ends (perform limit r) t result t') : Leads (run limit words) t (.ofTally result) t' := by
  unfold Cli.run
  rw [hwords]
  refine (Leads.isThere hp hd).bind ?_
  rw [if_pos rfl]
  refine Leads.bind h ?_
  match result with
  | .error cause => exact .pure _ t'
  | .ok 0 => exact .pure _ t'
  | .ok (count + 1) => exact (Leads.report _ t').bind (.pure _ t')

/-- **A command that handles the units of a folder** delivers the products of the units that are
reached, whatever is shown, and ends as the tally says. -/
theorem Leads.run_units {handle : Path → Action (StateM Session) Bool} (hs : Setting t p d)
    (hwords : Request.ofWords? words = some r) (hpath : r.path = p)
    (hperform : perform limit r = do
      let _ ← readConfiguration limit
      countFailures handle (← sources r.path extension))
    (hhandle : ∀ n ∈ t.units d extension, Handles handle t p d out make n)
    (hapart : ∀ n ∈ t.units d extension, ∀ n' ∈ t.units d extension, out n ≠ n') :
    Leads (run limit words) t (.ofTally (tally make (t.units d extension)))
      (t.deliverAll d out (product? make) (reached make (t.units d extension))) := by
  subst hpath
  refine Leads.run_of_perform hwords hs.resolve hs.isFolder ?_
  rw [hperform]
  refine (Ends.readConfiguration t.resolve_configuration hs.unconfigured).bind ?_
  refine (Ends.sources hs.resolve hs.isFolder hs.not_isFile extension).bind ?_
  exact Ends.countFailures hs.isFolder hhandle hapart (.refl t) fun _ _ => rfl

end

end JackToolchain.Cli
