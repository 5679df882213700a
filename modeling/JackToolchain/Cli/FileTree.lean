import JackToolchain.Cli.Host

/-!
# File trees

A file tree holds files at places, where a place is the list of names to follow from the root.
Every beginning of a place is a folder, so that only folders without files have to be listed on
their own.  Paths are resolved piece by piece from the root or from the working directory, and each
step needs a folder to start from.

A `Session` is a file tree in use, together with the text that has been shown.  It is a `Host`, so
what the command line does to files is a function from file trees to file trees.
-/

namespace JackToolchain.Cli

/-- The names to follow from the root. -/
abbrev Place : Type := List Name

/-- Files and folders. -/
structure FileTree where
  /-- The working directory. -/
  home : Place := []
  /-- Folders that are there even without a file in them. -/
  folders : List Place := []
  /-- The files and their contents. -/
  files : List (Place × List UInt8) := []
deriving Repr, DecidableEq

namespace FileTree

/-- The contents of the file at a place. -/
def read? (t : FileTree) (place : Place) : Option (List UInt8) := t.files.lookup place

/-- Whether there is a file at a place. -/
def isFile (t : FileTree) (place : Place) : Bool := (t.read? place).isSome

/-- Whether a place is a proper beginning of another one. -/
def leadsTo (place other : Place) : Bool := place.isPrefixOf other && place.length < other.length

/-- Whether there is a folder at a place. -/
def isFolder (t : FileTree) (place : Place) : Bool :=
  place.isEmpty || place.isPrefixOf t.home || t.folders.any (place.isPrefixOf ·)
    || t.files.any (fun file => leadsTo place file.1)

/-- The name of the file at `other`, if it is directly at `place`. -/
def nameIn? (place other : Place) : Option Name :=
  if place.isPrefixOf other then
    match other.drop place.length with
    | [name] => some name
    | _ => none
  else none

/-- The names of the files directly at a place. -/
def fileNames (t : FileTree) (place : Place) : List Name :=
  t.files.filterMap fun file => nameIn? place file.1

/-- The place that a piece of a path leads to. -/
def step (place : Place) (piece : List UInt8) : Place :=
  if Path.stays piece then place else if piece == [dot, dot] then place.dropLast
  else place ++ [piece]

/-- The place that pieces of a path lead to. -/
def walk (t : FileTree) (place : Place) : List (List UInt8) → Option Place
  | [] => some place
  | piece :: pieces => if t.isFolder place then walk t (step place piece) pieces else none

/-- The place that a path leads to, whether something is there or not. -/
def resolve (t : FileTree) (p : Path) : Option Place :=
  match p.bytes with
  | [] => none
  | b :: _ => t.walk (if b = slash then [] else t.home) p.pieces

/-- Replaces the contents of the file at a place, or adds the file. -/
def putIn (place : Place) (bytes : List UInt8) :
    List (Place × List UInt8) → List (Place × List UInt8)
  | [] => [(place, bytes)]
  | file :: files =>
    if file.1 = place then (place, bytes) :: files else file :: putIn place bytes files

/-- Makes a file at a place. -/
def put (t : FileTree) (place : Place) (bytes : List UInt8) : FileTree :=
  { t with files := putIn place bytes t.files }

theorem lookup_putIn_self (place : Place) (bytes : List UInt8) (files : List (Place × List UInt8)) :
    (putIn place bytes files).lookup place = some bytes := by
  induction files with
  | nil => simp [putIn]
  | cons file files ih =>
    by_cases h : file.1 = place
    · simp [putIn, h]
    · rw [putIn, if_neg h, List.lookup_cons, beq_false_of_ne (Ne.symm h)]
      exact ih

theorem lookup_putIn_of_ne {place other : Place} (h : other ≠ place) (bytes : List UInt8)
    (files : List (Place × List UInt8)) :
    (putIn place bytes files).lookup other = files.lookup other := by
  induction files with
  | nil => rw [putIn, List.lookup_cons, beq_false_of_ne h]
  | cons file files ih =>
    by_cases hf : file.1 = place
    · rw [putIn, if_pos hf, List.lookup_cons, List.lookup_cons, hf, beq_false_of_ne h]
    · rw [putIn, if_neg hf, List.lookup_cons, List.lookup_cons, ih]

/-- A file holds what was put there last. -/
theorem read?_put_self (t : FileTree) (place : Place) (bytes : List UInt8) :
    (t.put place bytes).read? place = some bytes := lookup_putIn_self place bytes t.files

/-- Putting a file changes no other file. -/
theorem read?_put_of_ne (t : FileTree) {place other : Place} (h : other ≠ place)
    (bytes : List UInt8) :
    (t.put place bytes).read? other = t.read? other := lookup_putIn_of_ne h bytes t.files

end FileTree

/-- A file tree in use. -/
structure Session where
  tree : FileTree
  /-- The texts that have been shown, newest first. -/
  shown : List String := []
deriving Repr, DecidableEq

namespace Session

/-- What a path leads to, as far as `look` finds something there. -/
def find? {α : Type} (s : Session) (p : Path) (look : FileTree → Place → Option α) : Option α :=
  (s.tree.resolve p).bind (look s.tree)

/-- The file tree after writing a file.  No file can be where a folder is. -/
def write? (s : Session) (p : Path) (bytes : List UInt8) : Option FileTree :=
  s.find? p fun t place => if t.isFolder place then none else some (t.put place bytes)

end Session

/-- A session is changed only by writing files and by showing text. -/
instance : Host (StateM Session) where
  isFile p :=
    return ((← get).find? p fun t place => if t.isFile place then some () else none).isSome
  isFolder p :=
    return ((← get).find? p fun t place => if t.isFolder place then some () else none).isSome
  fileNames p := do
    match (← get).find? p fun t place => if t.isFolder place then some (t.fileNames place)
      else none with
    | some names => return .ok names
    | none => return .error "no such folder"
  read p := do
    match (← get).find? p FileTree.read? with
    | some bytes => return .ok bytes
    | none => return .error "no such file"
  write p bytes := do
    match (← get).write? p bytes with
    | some tree => modify fun s => { s with tree }; return .ok ()
    | none => return .error "cannot be written"
  print text := modify fun s => { s with shown := text :: s.shown }

end JackToolchain.Cli
