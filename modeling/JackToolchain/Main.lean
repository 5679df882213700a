import JackToolchain.Cli.Run

/-!
# The program

The computer that the program runs on as a host, and the entry point.  The environment variable
`RUST_LOG` says up to which level records are shown; if it names no level, all of them are.

The files of this host have their names as texts, so names that are none cannot be told apart here.
-/

namespace JackToolchain.Cli

/-- The directory entry that a path names. -/
def Path.entry (p : Path) : IO.FS.DirEntry := ⟨p.text, ""⟩

/-- Does something that may fail and says why it failed. -/
def tryIO {α : Type} (action : IO α) : IO (Except String α) := do
  match ← action.toBaseIO with
  | .ok x => return .ok x
  | .error e => return .error (toString e)

/-- The computer that the program runs on.  Links are followed: what they lead to counts. -/
instance : Host IO where
  isFile p := do
    match ← p.entry.root.metadata.toBaseIO with
    | .ok found => return found.type == .file
    | .error _ => return false
  isFolder p := p.entry.root.isDir
  fileNames p := tryIO do
    let entries ← p.entry.root.readDir
    let files ← entries.filterM fun e => do
      match ← e.path.metadata.toBaseIO with
      | .ok found => return found.type == .file
      | .error _ => return false
    return files.toList.map (.ofText ·.fileName)
  read p := tryIO do return (← IO.FS.readBinFile p.text).toList
  write p bytes := tryIO (IO.FS.writeBinFile p.text ⟨bytes.toArray⟩)
  print text := IO.println text

end JackToolchain.Cli

/-- Runs the command line with the words it was started with. -/
def main (words : List String) : IO UInt32 := do
  let name ← IO.getEnv "RUST_LOG"
  let limit := (name.bind (JackToolchain.Log.Level.limitOfName? ·.toLower)).getD (some .debug)
  let outcome : JackToolchain.Cli.Outcome ← JackToolchain.Cli.run limit words
  if let .aborted cause := outcome then IO.eprintln ("Error: " ++ cause.message)
  return outcome.exitCode.toUInt32
