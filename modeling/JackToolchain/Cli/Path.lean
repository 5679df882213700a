import JackToolchain.Text.Encodings

/-!
# Paths

A path is a row of bytes that names a file or a folder.  Slashes separate its pieces; an empty piece
and the piece `.` stay in the folder reached so far, `..` leaves it, and any other piece is the name
of something in it.  Output files are named after source files by a change of the last name alone,
so that paths stay as the user wrote them.

The bytes of a name need not be text.  They are decoded only where a text is wanted: in what is
shown, and in the name of a unit, which has a replacement character for each part that is no text.
-/

namespace JackToolchain.Cli

/-- The byte that separates the pieces of a path. -/
abbrev slash : UInt8 := 0x2F

/-- The byte in front of an extension. -/
abbrev dot : UInt8 := 0x2E

/-- A name in a folder, as the bytes that it consists of. -/
abbrev Name : Type := List UInt8

/-- The name that a text spells. -/
def Name.ofText (text : String) : Name := Text.Utf8.encode text

/-- The text of a name, as far as it is one. -/
def Name.text (name : Name) : String := Text.Utf8.decodeLossy name

/-- The two parts of a name around its last dot, unless nothing stands before that dot. -/
def Name.split? (name : Name) : Option (Name × Name) :=
  let behind := (name.reverse.takeWhile (· != dot)).reverse
  let before := name.take (name.length - behind.length - 1)
  if before.isEmpty then none else some (before, behind)

/-- The part of a name that does not depend on what is in the file. -/
def Name.stem (name : Name) : Name :=
  match name.split? with
  | some (before, _) => before
  | none => name

/-- The part of a name that tells what is in the file. -/
def Name.extension? (name : Name) : Option Name := name.split?.map (·.2)

/-- Whether a name has this extension. -/
def Name.hasExtension (extension : String) (name : Name) : Bool :=
  name.extension? == some (Name.ofText extension)

/-- The same stem with another extension. -/
def Name.withExtension (name : Name) (extension : String) : Name :=
  name.stem ++ dot :: Name.ofText extension

/-- Whether one name comes before another, or is the same: the first byte in which they differ
decides, and a name comes before those that it begins. -/
def Name.precedes : Name → Name → Bool
  | [], _ => true
  | _ :: _, [] => false
  | b :: bs, c :: cs => if b = c then Name.precedes bs cs else Nat.blt b.toNat c.toNat

/-- A path as it is written. -/
structure Path where
  bytes : List UInt8
deriving Repr, DecidableEq

namespace Path

/-- The path that a text spells. -/
def ofText (text : String) : Path := ⟨Text.Utf8.encode text⟩

/-- The text of a path, as far as it is one. -/
def text (p : Path) : String := Text.Utf8.decodeLossy p.bytes

/-- The pieces that slashes separate, at least one. -/
def split : List UInt8 → List (List UInt8)
  | [] => [[]]
  | b :: bs =>
    if b = slash then [] :: split bs
    else
      match split bs with
      | [] => [[b]]
      | piece :: pieces => (b :: piece) :: pieces

/-- The pieces of a path. -/
def pieces (p : Path) : List (List UInt8) := split p.bytes

/-- Whether a piece stays in the folder reached so far. -/
def stays (piece : List UInt8) : Bool := piece.isEmpty || piece == [dot]

/-- The last name in a path, unless the path ends by leaving a folder or has no name. -/
def name? (p : Path) : Option Name :=
  match (p.pieces.filter (!stays ·)).getLast? with
  | some name => if name == [dot, dot] then none else some name
  | none => none

/-- The name of the unit that a path holds, a text. -/
def unitName (p : Path) : String :=
  match p.name? with
  | some name => name.stem.text
  | none => ""

/-- The path of a name in the folder that a path names. -/
def join (p : Path) (name : Name) : Path :=
  match p.bytes.getLast? with
  | none => ⟨name⟩
  | some b => if b = slash then ⟨p.bytes ++ name⟩ else ⟨p.bytes ++ slash :: name⟩

/-- Everything up to the last slash, the slash included. -/
def folderPart (p : Path) : List UInt8 := (p.bytes.reverse.dropWhile (· != slash)).reverse

/-- Everything behind the last slash. -/
def lastPart (p : Path) : Name := (p.bytes.reverse.takeWhile (· != slash)).reverse

/-- The path of a file beside that of a path, with the same stem and another extension. -/
def withExtension (p : Path) (extension : String) : Path :=
  ⟨p.folderPart ++ Name.withExtension p.lastPart extension⟩

/-- Drops pieces that stay where they are from the end of a path, which is kept last byte first.
The slash of an absolute path remains. -/
def dropStaying : List UInt8 → List UInt8
  | [] => []
  | b :: bs =>
    if b = slash ∧ bs ≠ [] ∨ b = dot ∧ bs.head? = some slash then dropStaying bs else b :: bs

/-- The path of the folder that a path is in. -/
def folder (p : Path) : Path := ⟨(dropStaying p.folderPart.reverse).reverse⟩

/-- The path of a file beside that of a path, with another name. -/
def withName (p : Path) (name : Name) : Path := p.folder.join name

end Path

end JackToolchain.Cli
