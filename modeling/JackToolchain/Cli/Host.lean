import JackToolchain.Cli.Path

/-!
# Hosts

What the command line needs of its surroundings: to look at files and folders, to read and write
files, and to show text.  A monad that offers this is a `Host`.  The command line is written for any
host, so that the same definitions run on a computer and on the file trees of
`JackToolchain.Cli.FileTree`.
-/

namespace JackToolchain.Cli

/-- Surroundings of the command line.  An operation that fails says why. -/
class Host (m : Type → Type) where
  /-- Whether a path names a file. -/
  isFile : Path → m Bool
  /-- Whether a path names a folder. -/
  isFolder : Path → m Bool
  /-- The names of the files directly in a folder, in any order. -/
  fileNames : Path → m (Except String (List Name))
  /-- The contents of a file. -/
  read : Path → m (Except String (List UInt8))
  /-- Makes a file, or replaces the contents of one. -/
  write : Path → List UInt8 → m (Except String Unit)
  /-- Shows lines of text. -/
  print : String → m Unit

/-- Surroundings are the same for what may have to stop early. -/
instance {ε : Type} {m : Type → Type} [Monad m] [Host m] : Host (ExceptT ε m) where
  isFile p := ExceptT.lift (Host.isFile p)
  isFolder p := ExceptT.lift (Host.isFolder p)
  fileNames p := ExceptT.lift (Host.fileNames p)
  read p := ExceptT.lift (Host.read p)
  write p bytes := ExceptT.lift (Host.write p bytes)
  print text := ExceptT.lift (Host.print text)

end JackToolchain.Cli
