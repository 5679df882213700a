import JackToolchain.VM.Command

/-!
# Sinks

The code generator writes its commands to a *sink*, line by line.  A sink may have room for a
limited number of bytes.  The first command that does not fit is cut where the room ends, and from
then on nothing fits.

A sink remembers the commands that it has taken whole, so that what it holds is known as a program
and not only as bytes.
-/

namespace JackToolchain.Jack

/-- Where generated commands go. -/
structure Sink where
  /-- The number of bytes that the sink still takes, if that is limited. -/
  room : Option Nat := none
  /-- The commands written in full, in order. -/
  commands : Array VM.Command := #[]
  /-- What has been written of the first command that did not fit. -/
  cut : List UInt8 := []

namespace Sink

/-- The empty sink that takes everything. -/
def unlimited : Sink := {}

/-- The empty sink that takes a number of bytes. -/
def limited (bytes : Nat) : Sink := { room := some bytes }

/-- Whether there is room for a command. -/
def hasRoomFor (s : Sink) (c : VM.Command) : Bool :=
  match s.room with
  | none => true
  | some bytes => c.line.utf8ByteSize ≤ bytes

/-- Writes a command, or as much of it as fits. -/
def write : Sink → VM.Command → Sink
  | ⟨none, commands, cut⟩, c => ⟨none, commands.push c, cut⟩
  | ⟨some bytes, commands, cut⟩, c =>
    let size := c.line.utf8ByteSize
    if size ≤ bytes then ⟨some (bytes - size), commands.push c, cut⟩
    else ⟨some 0, commands, cut ++ c.line.toUTF8.toList.take bytes⟩

/-- The bytes that a sink holds. -/
def bytes (s : Sink) : List UInt8 := (VM.programText s.commands.toList).toUTF8.toList ++ s.cut

end Sink

end JackToolchain.Jack
